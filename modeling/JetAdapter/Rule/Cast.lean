import JetAdapter.Query.Edit

/-!
# Casts

`CAST(e AS type)` is the call of a conversion function in Jet, `CLng(e)` for an integer type.  A cast to
a type that no function converts to is left alone, and so is a call of `CAST` without `AS`.
-/

namespace JetAdapter.Cast

/-- The conversion functions with the types they convert to. -/
def conversions : List (String × List String) :=
  [("CByte", ["tinyint", "byte"]),
   ("CInt", ["smallint"]),
   ("CLng", ["int", "integer", "long", "bigint", "counter"]),
   ("CSng", ["real", "single"]),
   ("CDbl", ["float", "double", "double precision", "decimal", "numeric"]),
   ("CCur", ["money", "currency"]),
   ("CStr", ["char", "varchar", "nchar", "nvarchar", "text", "string", "memo"]),
   ("CDate", ["date", "time", "datetime", "timestamp"]),
   ("CBool", ["bit", "bool", "boolean", "yesno"])]

/-- The function that converts to a type, by its name in small letters. -/
def conversion? (type : SqlText) : Option SqlText :=
  (conversions.find? fun (_, types) => types.any fun name => name.toList == type).map
    fun (function, _) => function.toList

/-- The name of a type: the identifiers up to the length or precision, in small letters. -/
def typeName (ts : List Token) : SqlText :=
  Text.joinWith [' '] ((ts.takeWhile fun t => t.kind.isIdentifier).map fun t => Text.lower t.text)

/-- The edits of one call: the conversion function in front, and no type at the end. -/
def callEdits (c : Call) : List Edit :=
  match Token.splitLast (Token.isKeywordAt (c.opening.depth + 1) .AS) c.args with
  | none => []
  | some (operand, _, type) =>
    if operand = [] then []
    else
      match conversion? (typeName type) with
      | none => []
      | some function =>
        [⟨⟨c.name.start, c.opening.stop⟩, function ++ ['(']⟩,
         ⟨⟨Token.stopOr c.opening.stop operand, c.closing.start⟩, []⟩]

/-- Makes calls of conversion functions of all casts. -/
def convert (text : SqlText) : Except SqlError SqlText := do
  let q ← Query.ofText text
  Edit.applyAll ((q.calls fun t => t.isKeyword .CAST).flatMap callEdits) text

end JetAdapter.Cast
