import JetAdapter.Decimal.Basic

/-!
# Shortest decimals

The decimal with the fewest digits that reads back as a given double.  A finite double is `m * 2 ^ q`, and
the reals that are read as it form an interval around it, with its ends if `m` is even.  For one digit,
two digits and so on, the two neighbours of the double among the decimals with so many digits are tried;
the first number of digits with a hit wins, and of two hits the nearer one.  All of it is exact
arithmetic on natural numbers.
-/

namespace JetAdapter.Decimal

/-- Which of two equally near decimals is taken. -/
inductive Tie
  | up
  | even
deriving DecidableEq, Repr

/-- A positive double and its interval of rounding, as fractions over one denominator. -/
structure Interval where
  value : Nat
  low : Nat
  high : Nat
  denominator : Nat
  closed : Bool

/-- The interval of a positive double `m * 2 ^ q`; `narrow` says that its lower neighbour is only half
as far away as the upper one. -/
def Interval.ofScaled (m : Nat) (q : Int) (narrow : Bool) : Interval :=
  let scale := if q ≥ 2 then Nat.pow 2 (q - 2).toNat else 1
  let below := if narrow then 1 else 2
  ⟨4 * m * scale, (4 * m - below) * scale, (4 * m + 2) * scale,
    if q ≥ 2 then 1 else Nat.pow 2 (2 - q).toNat, m % 2 = 0⟩

/-- The power of ten of the first digit of a positive fraction. -/
def leadingPower (value denominator : Nat) : Int :=
  if denominator ≤ value then digitCount (value / denominator) - 1
  else
    let zeros := digitCount (denominator / value)
    if denominator ≤ value * Nat.pow 10 (zeros - 1) then -(zeros - 1 : Nat) else -(zeros : Int)

/-- Whether a decimal with the given units over the given denominator rounds into the interval. -/
def Interval.holds (i : Interval) (units denominator factor : Nat) : Bool :=
  let x := units * denominator
  if i.closed then i.low * factor ≤ x && x ≤ i.high * factor
  else i.low * factor < x && x < i.high * factor

/-- The hit among the two neighbours of the double whose last digit has the given power of ten. -/
def Interval.hit? (i : Interval) (tie : Tie) (power : Int) : Option Nat :=
  let factor := if power < 0 then Nat.pow 10 power.natAbs else 1
  let denominator := if power < 0 then i.denominator else i.denominator * Nat.pow 10 power.natAbs
  let value := i.value * factor
  let units := value / denominator
  match i.holds units denominator factor, i.holds (units + 1) denominator factor with
  | false, false => none
  | true, false => some units
  | false, true => some (units + 1)
  | true, true =>
    let rest := 2 * (value % denominator)
    if rest < denominator then some units
    else if denominator < rest then some (units + 1)
    else if tie = .even ∧ units % 2 = 0 then some units
    else some (units + 1)

/-- The first hit, trying finer and finer last digits; after the last try the digits are those of the
double itself, cut off. -/
def Interval.search (i : Interval) (tie : Tie) : Nat → Int → Nat × Int
  | 0, power =>
    (i.value * Nat.pow 10 power.natAbs / i.denominator, power)
  | tries + 1, power =>
    match i.hit? tie power with
    | some units => (units, power)
    | none => search i tie tries (power - 1)

/-- Takes the zeros off the end of a mantissa; `fuel` bounds their number. -/
def dropZeros : Nat → Nat → Int → Nat × Int
  | 0, mantissa, exponent => (mantissa, exponent)
  | fuel + 1, mantissa, exponent =>
    if mantissa % 10 = 0 ∧ mantissa ≠ 0 then dropZeros fuel (mantissa / 10) (exponent + 1)
    else (mantissa, exponent)

/-- The decimal with the fewest digits that reads back as `m * 2 ^ q`. -/
def ofScaled (tie : Tie) (negative : Bool) (m : Nat) (q : Int) (narrow : Bool) : Decimal :=
  let interval := Interval.ofScaled m q narrow
  let (units, power) :=
    interval.search tie 17 (leadingPower interval.value interval.denominator)
  let (mantissa, exponent) := dropZeros (digitCount units) units power
  ⟨negative, mantissa, exponent⟩

/-- The number of fractions in the bits of a double. -/
def fractionCount : Nat := 0x10000000000000

/-- The number of scales in the bits of a double. -/
def scaleCount : Nat := 0x800

/-- The shortest decimal of a finite double; an infinity or no number has none. -/
def ofFloat? (tie : Tie) (x : Float) : Option Decimal :=
  let bits := x.toBits.toNat
  let negative := bits / (scaleCount * fractionCount) = 1
  let scale : Nat := bits / fractionCount % scaleCount
  let fraction : Nat := bits % fractionCount
  if scale = scaleCount - 1 then none
  else if scale = 0 then
    if fraction = 0 then some ⟨negative, 0, 0⟩
    else some (ofScaled tie negative fraction (-1074) false)
  else some (ofScaled tie negative (fractionCount + fraction) ((scale : Int) - 1075) (fraction = 0 ∧ scale > 1))

end JetAdapter.Decimal
