import JetAdapter.Value

/-!
# Types of parameters
-/

namespace JetAdapter

/-- The declared type of a parameter. -/
inductive SqlType
  | boolean
  | byte
  | int16
  | int32
  | int64
  | single
  | double
  | decimal (precision scale : UInt8)
  | currency
  | text (length : Option UInt32)
  | memo
  | dateTime
  | binary
  | guid
deriving DecidableEq, Repr

namespace SqlType

/-- A type for a value that has none declared. -/
def ofValue : SqlValue → SqlType
  | .null => .text none
  | .bool _ => .boolean
  | .int n => 
    if Int32.minValue.toInt ≤ n.toInt ∧ n.toInt ≤ Int32.maxValue.toInt then .int32 else .int64
  | .float _ => .double
  | .text _ => .text none
  | .blob _ => .binary

/-- The type as it is listed beside a parameter. -/
def describe : SqlType → String
  | .boolean => "Boolean"
  | .byte => "Byte"
  | .int16 => "Int16"
  | .int32 => "Int32"
  | .int64 => "Int64"
  | .single => "Single"
  | .double => "Double"
  | .decimal precision scale =>
    "Decimal \x7b precision: " ++ toString precision.toNat ++ ", scale: " ++ toString scale.toNat
      ++ " \x7d"
  | .currency => "Currency"
  | .text none => "Text \x7b length: None \x7d"
  | .text (some n) => "Text \x7b length: Some(" ++ toString n.toNat ++ ") \x7d"
  | .memo => "Memo"
  | .dateTime => "DateTime"
  | .binary => "Binary"
  | .guid => "Guid"

/-- The types that are a name alone, with their names. -/
def named : List (SqlType × String) :=
  [(.boolean, "boolean"), (.byte, "byte"), (.int16, "int16"), (.int32, "int32"),
   (.int64, "int64"), (.single, "single"), (.double, "double"), (.currency, "currency"),
   (.memo, "memo"), (.dateTime, "date_time"), (.binary, "binary"), (.guid, "guid")]

end SqlType

end JetAdapter
