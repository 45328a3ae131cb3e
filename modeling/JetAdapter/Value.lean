import JetAdapter.Decimal.Layout
import JetAdapter.Text.Quoted

/-!
# Values

The values that parameters are bound to.  Integers are 64-bit words, blobs are bytes.
-/

namespace JetAdapter

/-- A bound value. -/
inductive SqlValue
  | null
  | bool (value : Bool)
  | int (value : Int64)
  | float (value : Float)
  | text (content : SqlText)
  | blob (bytes : List UInt8)
deriving DecidableEq

namespace SqlValue

/-- The two capital hexadecimal digits of a byte. -/
def hexText (byte : UInt8) : SqlText :=
  let digit (n : Nat) : Char := (Nat.digitChar n).toUpper
  [digit (byte.toNat / 16), digit (byte.toNat % 16)]

/-- The literal for a value in the SQL of Jet: truth is `-1`, quotes in texts are doubled, and blobs are
hexadecimal. -/
def inlineText : SqlValue → SqlText
  | .null => "Null".toList
  | .bool b => if b then "-1".toList else "0".toList
  | .int n => Decimal.intText n.toInt
  | .float x => floatText x
  | .text s => '\'' :: (Text.double '\'' s ++ ['\''])
  | .blob bytes => '0' :: 'x' :: bytes.flatMap hexText

/-- The value of a signed integer of half the size. -/
def ofInt32 (n : Int32) : SqlValue :=
  .int n.toInt64

/-- The value of an unsigned integer of half the size. -/
def ofUInt32 (n : UInt32) : SqlValue :=
  .int (Int64.ofNat n.toNat)

/-- The value of something that may be missing; what is missing is null. -/
def ofOption {α : Type} (ofValue : α → SqlValue) : Option α → SqlValue
  | none => .null
  | some a => ofValue a

/-- The number of an integer value. -/
def int? : SqlValue → Option Int64
  | .int n => some n
  | _ => none

end SqlValue

end JetAdapter
