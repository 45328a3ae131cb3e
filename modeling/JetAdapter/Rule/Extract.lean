import JetAdapter.Query.Edit

/-!
# Parts of dates

`EXTRACT(field FROM e)` is `DatePart('interval', e)` in Jet.
-/

namespace JetAdapter.Extract

/-- The fields of a date with their intervals. -/
def intervals : List (String × String) :=
  [("year", "yyyy"), ("quarter", "q"), ("month", "m"), ("dayofyear", "y"), ("day", "d"),
   ("weekday", "w"), ("dow", "w"), ("week", "ww"), ("hour", "h"), ("minute", "n"), ("second", "s")]

/-- The interval of a field, in any case of letters. -/
def interval? (field : SqlText) : Option SqlText :=
  (intervals.find? fun (name, _) => name.toList == Text.lower field).map
    fun (_, interval) => interval.toList

/-- The edit of one call. -/
def callEdit (c : Call) : Except SqlError Edit :=
  match c.args with
  | field :: fromWord :: _ :: _ =>
    if field.kind.isIdentifier ∧ fromWord.isKeyword .FROM then
      match interval? field.text with
      | some interval =>
        .ok ⟨⟨c.name.start, fromWord.stop⟩, "DatePart('".toList ++ interval ++ "',".toList⟩
      | none => .error (.unsupportedConstruct (.extractField field.text))
    else .error (.unsupportedConstruct (.extractForm (Token.spell c.tokens)))
  | _ => .error (.unsupportedConstruct (.extractForm (Token.spell c.tokens)))

/-- Makes calls of `DatePart` of all calls of `EXTRACT`. -/
def convert (text : SqlText) : Except SqlError SqlText := do
  let q ← Query.ofText text
  let edits ← (q.calls fun t => t.spells "extract".toList).mapM callEdit
  Edit.applyAll edits text

end JetAdapter.Extract
