import JetAdapter.Text.Basic

/-!
# Dialects

What differs from one dialect of SQL to another in names and literals.
-/

namespace JetAdapter

/-- A dialect of SQL. -/
structure Dialect where
  name : String
  quoteOpen : Char
  quoteClose : Char
  placeholder : String
  trueLiteral : String
  falseLiteral : String
  hasOffset : Bool
  hasVariableLimit : Bool
  reservedWords : List String
deriving DecidableEq, Repr

/-- The optional parts of the dialect of Jet: further functions, functions that trim texts, and limits that
are bound to a parameter. -/
structure JetFeatures where
  extendedFunctions : Bool
  trimFunctions : Bool
  variableLimit : Bool
deriving DecidableEq, Repr

/-- The functions, without variable limits. -/
def JetFeatures.default : JetFeatures :=
  ⟨true, true, false⟩

namespace Dialect

/-- The dialect of no engine in particular. -/
def generic : Dialect where
  name := "generic"
  quoteOpen := '"'
  quoteClose := '"'
  placeholder := "?"
  trueLiteral := "TRUE"
  falseLiteral := "FALSE"
  hasOffset := true
  hasVariableLimit := true
  reservedWords := []

/-- The words that Jet does not take for names. -/
def jetReservedWords : List String :=
  ["action", "add", "all", "alter", "and", "any", "as", "asc", "between", "by", "column",
   "constraint", "count", "create", "currency", "database", "date", "delete", "desc", "distinct",
   "drop", "exists", "from", "group", "having", "in", "index", "inner", "insert", "into", "is",
   "join", "key", "left", "level", "like", "long", "max", "memo", "min", "name", "not", "null",
   "number", "on", "or", "order", "outer", "password", "percent", "primary", "references",
   "right", "select", "set", "single", "sum", "table", "text", "time", "top", "union", "unique",
   "update", "user", "value", "values", "where", "yesno"]

/-- The dialect of Jet. -/
def jet (features : JetFeatures) : Dialect where
  name := "jet"
  quoteOpen := '['
  quoteClose := ']'
  placeholder := "?"
  trueLiteral := "-1"
  falseLiteral := "0"
  hasOffset := false
  hasVariableLimit := features.variableLimit
  reservedWords := jetReservedWords

/-- Whether a word is reserved, in any case of letters. -/
def isReserved (d : Dialect) (word : SqlText) : Bool :=
  d.reservedWords.any fun w => w.toList == Text.lower word

/-- A name between quotes, as it stands. -/
def quote (d : Dialect) (name : SqlText) : SqlText :=
  d.quoteOpen :: (name ++ [d.quoteClose])

/-- A name between quotes if it is a reserved word, and as it stands if not. -/
def quoteIfReserved (d : Dialect) (name : SqlText) : SqlText :=
  if d.isReserved name then d.quote name else name

end Dialect

end JetAdapter
