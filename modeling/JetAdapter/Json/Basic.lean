import JetAdapter.Decimal.Layout

/-!
# JSON

Values of JSON as they are written: numbers keep their digits, objects their members in order, repeated
names included.  A string whose escapes name half of a surrogate pair has no content.
-/

namespace JetAdapter

/-- A value of JSON. -/
inductive Json
  | null
  | bool (value : Bool)
  | number (negative : Bool) (numeral : Numeral)
  | string (content : Option SqlText)
  | array (items : List Json)
  | object (members : List (Option SqlText × Json))
deriving Repr

namespace Json

/-- A string with a content. -/
def ofText (t : SqlText) : Json :=
  .string (some t)

/-- A string with a content. -/
def ofString (s : String) : Json :=
  .string (some s.toList)

/-- An integer. -/
def ofInt (n : Int) : Json :=
  .number (n < 0) ⟨Decimal.natText n.natAbs, [], none⟩

/-- A double: the fewest digits that read back, of two equally near decimals the one with an even last
digit.  What is no finite number is `null`. -/
def ofFloat (x : Float) : Json :=
  match Decimal.ofFloat? .even x with
  | some d => .number d.negative d.jsonNumeral
  | none => .null

/-- An object with these members. -/
def ofMembers (members : List (String × Json)) : Json :=
  .object (members.map fun (name, value) => (some name.toList, value))

/-! ### Numbers -/

/-- What a number stands for: an integer that fits a signed or an unsigned word, or a double. -/
inductive Number
  | integer (n : Int)
  | real (x : Float)

/-- Takes digits into a number as long as it fits an unsigned word, and answers the digits left over. -/
def absorb (n : Nat) : SqlText → Nat × SqlText
  | [] => (n, [])
  | d :: ds =>
    let next := 10 * n + (d.toNat - '0'.toNat)
    if next < UInt64.size then absorb next ds else (n, d :: ds)

/-- The double for a power of ten up to the largest one. -/
def powerOfTen (n : Nat) : Float :=
  Float.ofScientific 1 false n

/-- The largest power of ten among the doubles. -/
def greatestPower : Nat := 308

/-- A double scaled by a power of ten in the arithmetic of doubles; none if it leaves their range. -/
def scale? (x : Float) (power : Int) : Option Float :=
  if power.natAbs ≤ greatestPower then
    if power ≥ 0 then
      let y := x * powerOfTen power.natAbs
      if y.isInf then none else some y
    else some (x / powerOfTen power.natAbs)
  else if x == 0.0 then some x
  else if power ≥ 0 then none
  else scale? (x / powerOfTen greatestPower) (power + greatestPower)
termination_by power.natAbs
decreasing_by simp only [greatestPower] at *; omega

/-- The size of a number that is no integer: the first digits that fit a word, as a double, scaled by the
power of ten that is left. -/
def realSize? (n : Numeral) : Option Float :=
  let (whole, dropped) := absorb 0 n.whole
  let (digits, unused) := absorb whole n.fraction
  scale? digits.toUInt64.toFloat
    (n.powerValue + dropped.length - (n.fraction.length - unused.length : Nat))

/-- What a number stands for; none if it is past all doubles.  A negative zero is a double. -/
def number? (negative : Bool) (n : Numeral) : Option Number :=
  let size := Decimal.ofDigits n.whole
  if n.isWhole ∧ !negative ∧ size < UInt64.size then some (.integer size)
  else if n.isWhole ∧ negative ∧ 0 < size ∧ size ≤ Decimal.int64Count then some (.integer (-size))
  else (realSize? n).map fun x => .real (if negative then -x else x)

/-! ### Views -/

/-- The content of a string. -/
def text? : Json → Option SqlText
  | .string content => content
  | _ => none

/-- The truth value. -/
def bool? : Json → Option Bool
  | .bool b => some b
  | _ => none

/-- An integer below a bound that is not negative. -/
def nat? (bound : Nat) : Json → Option Nat
  | .number negative numeral =>
    match number? negative numeral with
    | some (.integer n) => if 0 ≤ n ∧ n < bound then some n.toNat else none
    | _ => none
  | _ => none

/-- The items of an array. -/
def items? : Json → Option (List Json)
  | .array items => some items
  | _ => none

/-- Nothing for `null`, and otherwise what a reader makes of the value. -/
def nullable? {α : Type} (read? : Json → Option α) : Json → Option (Option α)
  | .null => some none
  | j => (read? j).map some

/-- The value of a member that must not be repeated; none inside if there is no such member. -/
def member? (name : SqlText) (members : List (SqlText × Json)) : Option (Option Json) :=
  match members.filter fun m => m.1 == name with
  | [] => some none
  | [(_, value)] => some (some value)
  | _ => none

/-- The fields of a record with these names: from an object by name, where other members do not matter, or
from an array by place. -/
def fields? (names : List String) : Json → Option (List (Option Json))
  | .object members => do
    let named ← members.mapM fun (name, value) => name.map (·, value)
    names.mapM fun name => member? name.toList named
  | .array items =>
    if items.length ≤ names.length then
      some (items.map some ++ List.replicate (names.length - items.length) none)
    else none
  | _ => none

/-- What a reader makes of a field, or a default if the field is missing. -/
def fieldOr {α : Type} (default : α) (read? : Json → Option α) : Option Json → Option α
  | none => some default
  | some j => read? j

/-- A choice: a name alone, or an object with the name and what comes with it. -/
def choice? : Json → Option (SqlText × Option Json)
  | .string content => content.map (·, none)
  | .object [(some name, value)] => some (name, some value)
  | _ => none

/-- Whether what comes with a choice is nothing. -/
def isNothing : Option Json → Bool
  | none => true
  | some .null => true
  | _ => false

end Json

end JetAdapter
