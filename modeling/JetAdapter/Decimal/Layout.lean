import JetAdapter.Decimal.Numeral
import JetAdapter.Decimal.Shortest

/-!
# Layouts of decimals

A decimal is written either positionally, `1200` or `0.012`, or as a product with a power of ten,
`1.2e+22`.  SQL text is always positional; JSON is positional for moderate sizes and always shows that the
number is no integer.
-/

namespace JetAdapter.Decimal

/-- The power of ten of the first digit. -/
def leading (d : Decimal) : Int :=
  d.exponent + digitCount d.mantissa - 1

/-- The digits of the mantissa with the point at its place and zeros up to it; a decimal without a
fraction gets the given digits as one. -/
def positional (fraction : SqlText) (d : Decimal) : Numeral :=
  let digits := natText d.mantissa
  if d.exponent ≥ 0 then ⟨digits ++ List.replicate d.exponent.toNat '0', fraction, none⟩
  else
    let places := d.exponent.natAbs
    let padded := List.replicate (places + 1 - digits.length) '0' ++ digits
    ⟨padded.take (padded.length - places), padded.drop (padded.length - places), none⟩

/-- One digit before the point, and the power of ten with its sign. -/
def scientific (d : Decimal) : Numeral :=
  let digits := natText d.mantissa
  let sign := if d.leading < 0 then '-' else '+'
  ⟨digits.take 1, digits.drop 1, some ⟨'e', [sign], natText d.leading.natAbs⟩⟩

/-- The form of a number that is no integer in JSON: positional with at least one decimal place if its
first digit stands for a power of ten from -5 to 15, and scientific otherwise. -/
def jsonNumeral (d : Decimal) : Numeral :=
  if d.mantissa = 0 ∨ (-5 ≤ d.leading ∧ d.leading ≤ 15) then d.positional ['0']
  else d.scientific

end JetAdapter.Decimal

namespace JetAdapter

/-- A numeral after a minus, if it is negative. -/
def Numeral.signedText (negative : Bool) (n : Numeral) : SqlText :=
  if negative then '-' :: n.text else n.text

/-- The text of a double in SQL: the fewest digits that read back, of two equally near decimals the
larger, always positional. -/
def floatText (x : Float) : SqlText :=
  match Decimal.ofFloat? .up x with
  | some d => (d.positional []).signedText d.negative
  | none => if x.isNaN then "NaN".toList else if x < 0 then "-inf".toList else "inf".toList

end JetAdapter
