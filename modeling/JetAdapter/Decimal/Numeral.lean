import JetAdapter.Decimal.Basic

/-!
# Numerals

How a number is written without its sign: digits, perhaps a point and more digits, perhaps a power of
ten.  `Numeral.scan` takes the longest numeral off a text; `Numeral.scan_text` says that it loses
nothing.
-/

namespace JetAdapter

/-- The power of ten of a numeral as it is written; the digits may be missing. -/
structure PowerOfTen where
  mark : Char
  sign : SqlText
  digits : SqlText
deriving DecidableEq, Repr

/-- A number as it is written. -/
structure Numeral where
  whole : SqlText
  fraction : SqlText
  power : Option PowerOfTen
deriving DecidableEq, Repr

namespace Numeral

/-- The text of the digits after the point, with the point. -/
def fractionText : SqlText → SqlText
  | [] => []
  | digits => '.' :: digits

/-- The text of a power of ten. -/
def powerText (p : PowerOfTen) : SqlText :=
  p.mark :: (p.sign ++ p.digits)

/-- The text of a numeral. -/
def text (n : Numeral) : SqlText :=
  n.whole ++ (fractionText n.fraction ++ (n.power.map powerText).getD [])

/-! ### Scanning -/

/-- Takes a point and the digits after it off a text; a point without digits stays. -/
def scanFraction : SqlText → SqlText × SqlText
  | '.' :: t =>
    if t.takeWhile Char.isDigit = [] then ([], '.' :: t)
    else (t.takeWhile Char.isDigit, t.dropWhile Char.isDigit)
  | t => ([], t)

/-- Takes a sign off a text. -/
def scanSign : SqlText → SqlText × SqlText
  | '+' :: t => (['+'], t)
  | '-' :: t => (['-'], t)
  | t => ([], t)

/-- Takes a power of ten off a text: an `e` before a digit or a sign, the sign, and the digits, of which
there may be none after a sign. -/
def scanPower : SqlText → Option PowerOfTen × SqlText
  | mark :: t =>
    let (sign, digits) := scanSign t
    if (mark = 'e' ∨ mark = 'E') ∧ (sign ≠ [] ∨ digits.takeWhile Char.isDigit ≠ []) then
      (some ⟨mark, sign, digits.takeWhile Char.isDigit⟩, digits.dropWhile Char.isDigit)
    else (none, mark :: t)
  | [] => (none, [])

/-- Takes the longest numeral off a text that starts with a digit. -/
def scan (t : SqlText) : Numeral × SqlText :=
  let (fraction, afterFraction) := scanFraction (t.dropWhile Char.isDigit)
  let (power, rest) := scanPower afterFraction
  (⟨t.takeWhile Char.isDigit, fraction, power⟩, rest)

theorem scanFraction_text (t : SqlText) :
    fractionText (scanFraction t).1 ++ (scanFraction t).2 = t := by
  unfold scanFraction
  split
  · split
    · rfl
    · rw [fractionText, List.cons_append, List.takeWhile_append_dropWhile]
      assumption
  · rfl

theorem scanSign_text (t : SqlText) : (scanSign t).1 ++ (scanSign t).2 = t := by
  unfold scanSign
  split <;> rfl

theorem scanPower_text (t : SqlText) :
    ((scanPower t).1.map powerText).getD [] ++ (scanPower t).2 = t := by
  cases t with
  | nil => rfl
  | cons c t =>
    simp only [scanPower]
    split
    · simp [powerText, List.takeWhile_append_dropWhile, scanSign_text]
    · rfl

/-- Scanning loses nothing. -/
theorem scan_text (t : SqlText) : (scan t).1.text ++ (scan t).2 = t := by
  simp only [scan, text, List.append_assoc, scanPower_text, scanFraction_text,
    List.takeWhile_append_dropWhile]

/-! ### Meaning -/

/-- Whether the numeral has neither a fraction nor a power of ten. -/
def isWhole (n : Numeral) : Bool :=
  n.fraction.isEmpty && n.power.isNone

/-- Whether a power of ten was begun and its digits are missing. -/
def lacksPowerDigits (n : Numeral) : Bool :=
  n.power.any fun p => p.digits.isEmpty

/-- The power of ten that is written out, zero if none is. -/
def powerValue (n : Numeral) : Int :=
  match n.power with
  | none => 0
  | some p => if p.sign = ['-'] then -(Decimal.ofDigits p.digits : Int) else Decimal.ofDigits p.digits

/-- The decimal that a numeral stands for, under a sign. -/
def toDecimal (negative : Bool) (n : Numeral) : Decimal :=
  ⟨negative, Decimal.ofDigits (n.whole ++ n.fraction), n.powerValue - n.fraction.length⟩

end Numeral

/-! ### Doubles in free text -/

/-- The names that stand for a double that is no number or not finite, in any case of letters. -/
def namedDouble (t : SqlText) : Option Float :=
  if Text.sameWord t "inf".toList ∨ Text.sameWord t "infinity".toList then some (1.0 / 0.0)
  else if Text.sameWord t "nan".toList then some (0.0 / 0.0)
  else none

/-- Reads a whole text as a double: an optional sign, and then a name such as `inf` or a numeral, where
the digits before or after the point may be missing but not both. -/
def readDouble (t : SqlText) : Option Float :=
  let (sign, body) := Numeral.scanSign t
  let negative := sign = ['-']
  match namedDouble body with
  | some x => some (if negative then -x else x)
  | none =>
    let whole := body.takeWhile Char.isDigit
    let (fraction, afterFraction) :=
      match body.dropWhile Char.isDigit with
      | '.' :: r => (r.takeWhile Char.isDigit, r.dropWhile Char.isDigit)
      | r => ([], r)
    let (power, rest) := Numeral.scanPower afterFraction
    let numeral : Numeral := ⟨whole, fraction, power⟩
    if whole ++ fraction ≠ [] ∧ rest = [] ∧ ¬numeral.lacksPowerDigits then
      some (numeral.toDecimal negative).toFloat
    else none

end JetAdapter
