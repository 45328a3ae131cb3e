import JetAdapter.Dialect.Basic
import JetAdapter.Dialect.Function
import JetAdapter.Statement.Basic

/-!
# Functions and limits in Jet

Jet has some functions under other names, and limits the rows of a query by `TOP n` behind `SELECT` or
`SELECT DISTINCT`.
-/

namespace JetAdapter

/-- How many rows a query may have: a number, or the value of a parameter. -/
inductive RowLimit
  | fixed (rows : UInt64)
  | bound (value : SqlValue)
deriving DecidableEq

namespace JetFeatures

/-- The functions that are always spelled another way. -/
def baseFunctions : List (String × FunctionForm) :=
  [("upper", .renamed "ucase".toList), ("lower", .renamed "lcase".toList),
   ("current_timestamp", .bare "Now".toList), ("mod", .expansion "(?1 Mod ?2)".toList)]

/-- The further functions. -/
def moreFunctions : List (String × FunctionForm) :=
  [("concat", .concat), ("length", .renamed "len".toList),
   ("substring", .expansion "mid(?1, ?2+1, ?3)".toList),
   ("date", .expansion "dateadd('d', 0, datediff('d', 0, ?1))".toList),
   ("sqrt", .expansion "Sqr(?1)".toList), ("coalesce", .coalesce),
   ("nullif", .expansion "IIf(?1 = ?2, Null, ?1)".toList)]

/-- The functions that trim texts. -/
def trimmingFunctions : List (String × FunctionForm) :=
  [("trim", .renamed "Trim".toList), ("ltrim", .renamed "LTrim".toList),
   ("rtrim", .renamed "RTrim".toList)]

/-- The functions that Jet spells another way. -/
def functions (f : JetFeatures) : List (String × FunctionForm) :=
  baseFunctions ++ (if f.extendedFunctions then moreFunctions else [])
    ++ (if f.trimFunctions then trimmingFunctions else [])

/-- The form of a function, by its name in any case of letters. -/
def function? (f : JetFeatures) (name : SqlText) : Option FunctionForm :=
  (f.functions.find? fun (known, _) => known.toList == Text.lower name).map fun (_, form) => form

/-- Writes a call of a function; nothing for a function that Jet spells like everyone else. -/
def renderCall (f : JetFeatures) (name : SqlText) (args : List SqlText) :
    Except SqlError (Option SqlText) :=
  match f.function? name with
  | none => .ok none
  | some form => (form.render name args).map some

end JetFeatures

/-! ### Limits -/

/-- The words that limit the rows. -/
def topText (rows : UInt64) : SqlText :=
  " top ".toList ++ Decimal.natText rows.toNat

/-- Limits the rows of a query, by words behind its `SELECT` or `SELECT DISTINCT`. -/
def limitText (rows : UInt64) (text : SqlText) : Except SqlError SqlText :=
  match lex text with
  | select :: next :: others =>
    if select.kind.isKeyword .SELECT then
      if next.kind.isKeyword .DISTINCT then
        .ok (Lexeme.spell [select, next] ++ topText rows ++ Lexeme.spell others)
      else .ok (Lexeme.spell [select] ++ topText rows ++ Lexeme.spell (next :: others))
    else .error (.unsupportedClause .notSelect)
  | _ => .error (.unsupportedClause .notSelect)

/-- Limits the rows of a query that starts at its first row; Jet knows no other start. -/
def limitString (text : SqlText) (offset rows : UInt64) : Except SqlError SqlText :=
  if offset > 0 then .error (.unsupportedClause .offset) else limitText rows text

namespace RowLimit

/-- The number of rows.  A bound one has to be allowed, and an integer that is not negative. -/
def rows (f : JetFeatures) : RowLimit → Except SqlError UInt64
  | .fixed n => .ok n
  | .bound value =>
    if f.variableLimit then
      match value.int? with
      | some n =>
        if n < 0 then .error (.unsupportedClause (.notACount value)) else .ok n.toUInt64
      | none => .error (.unsupportedClause (.notACount value))
    else .error (.unsupportedClause .parameterized)

end RowLimit

/-- Limits the rows of a statement.  The words go into the text before its first parameter. -/
def Statement.limit (f : JetFeatures) (offset : UInt64) (limit : RowLimit) (s : Statement) :
    Except SqlError Statement := do
  let rows ← limit.rows f
  if s.head = [] then .error (.unsupportedClause .notSelect)
  else return { s with head := ← limitString s.head offset rows }

end JetAdapter
