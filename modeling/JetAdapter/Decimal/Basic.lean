import JetAdapter.Text.Basic

/-!
# Decimals

A decimal is a sign, a number of units and the power of ten that one unit stands for.  It is what lies
between the text of a number and its double: texts are read into decimals, a decimal is rounded to the
nearest double, and a double is written through one of its decimals.
-/

namespace JetAdapter

/-- The number `mantissa * 10 ^ exponent`, with its sign. -/
structure Decimal where
  negative : Bool
  mantissa : Nat
  exponent : Int
deriving DecidableEq, Repr

namespace Decimal

/-! ### Digits -/

/-- The digits of a natural number, without leading zeros. -/
def natText (n : Nat) : SqlText :=
  Nat.toDigits 10 n

/-- The digits of an integer, after a minus if it is negative. -/
def intText : Int → SqlText
  | .ofNat n => natText n
  | .negSucc n => '-' :: natText (n + 1)

/-- The number that a list of digits stands for. -/
def ofDigits (digits : SqlText) : Nat :=
  Nat.ofDigitChars 10 digits 0

theorem ofDigits_natText (n : Nat) : ofDigits (natText n) = n :=
  Nat.ofDigitChars_toDigits (by decide) (by decide)

/-- The number of digits of a natural number; zero has one. -/
def digitCount (n : Nat) : Nat :=
  (natText n).length

/-- Reads a text of digits as a number below a bound; there is no number without digits. -/
def readNat (bound : Nat) (t : SqlText) : Option Nat :=
  if t ≠ [] ∧ t.all Char.isDigit ∧ ofDigits t < bound then some (ofDigits t) else none

/-- Reads a text of digits, perhaps after a plus, as a number below a bound. -/
def readCount (bound : Nat) : SqlText → Option Nat
  | '+' :: t => readNat bound t
  | t => readNat bound t

/-- The number of 64-bit integers that are not negative. -/
def int64Count : Nat := 0x8000000000000000

/-- Reads a text of digits, perhaps after a sign, as a 64-bit integer. -/
def readInt64 : SqlText → Option Int64
  | '-' :: t => (readNat (int64Count + 1) t).map fun n => Int64.ofInt (-n)
  | t => (readCount int64Count t).map fun n => Int64.ofInt n

/-! ### Doubles -/

/-- The first power of ten past every double. -/
def powerPastDoubles : Int := 310

/-- A power of ten below half of the least positive double. -/
def powerBelowDoubles : Int := -330

/-- The double nearest to a decimal, an infinity if the decimal is past all doubles.  The sign is kept
also on zero. -/
def toFloat (d : Decimal) : Float :=
  let size : Float :=
    let power := d.exponent + digitCount d.mantissa
    if d.mantissa = 0 ∨ power < powerBelowDoubles then 0.0
    else if power > powerPastDoubles then 1.0 / 0.0
    else Float.ofScientific d.mantissa (d.exponent < 0) d.exponent.natAbs
  if d.negative then -size else size

end Decimal

end JetAdapter
