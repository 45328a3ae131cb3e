import JetAdapter.Provider.Format
import JetAdapter.Proofs.JsonTexts

/-!
# Values without a tag

A bound value is written as JSON without the name of its sort.  Whoever reads it tries the six sorts in their order and
takes the first that fits (`SqlValue.ofJson?_eq_findSome?`).  What is written of a value that is no double fits none of
the sorts before its own, and its own sort reads the value back (`SqlValue.ofJson?_of_isText`).
-/

namespace JetAdapter

namespace Json.Number

/-- The integer that a number stands for, if it fits a signed word. -/
def int64? : Number → Option Int64
  | .integer n => if n < Decimal.int64Count then some (Int64.ofInt n) else none
  | .real _ => none

/-- The double for a number. -/
def toFloat : Number → Float
  | .integer n => if 0 ≤ n then n.toNat.toUInt64.toFloat else (Int64.ofInt n).toFloat
  | .real x => x

end Json.Number

namespace SqlValue

open Json (Prints)

/-! ### Sorts of values -/

/-- The sorts of values. -/
inductive Form
  | null
  | bool
  | int
  | float
  | text
  | blob
deriving DecidableEq, Repr

/-- The sort of a value. -/
def form : SqlValue → Form
  | .null => .null
  | .bool _ => .bool
  | .int _ => .int
  | .float _ => .float
  | .text _ => .text
  | .blob _ => .blob

namespace Form

/-- The sorts in the order in which they are tried. -/
def all : List Form :=
  [.null, .bool, .int, .float, .text, .blob]

/-- The sorts that are tried before one. -/
def before (f : Form) : List Form :=
  all.takeWhile fun g => g ≠ f

theorem exists_all (f : Form) : ∃ after, all = f.before ++ f :: after := by
  cases f <;> exact ⟨_, rfl⟩

/-- Reads a value of one sort. -/
def read? : Form → Json → Option SqlValue
  | .null, .null => some .null
  | .bool, .bool b => some (.bool b)
  | .int, .number negative numeral => ((Json.number? negative numeral).bind Json.Number.int64?).map .int
  | .float, .number negative numeral => (Json.number? negative numeral).map fun n => .float n.toFloat
  | .text, .string content => content.map .text
  | .blob, .array items => (items.mapM fun j => (Json.nat? 256 j).map UInt8.ofNat).map .blob
  | _, _ => none

end Form

/-- A value is read as the first sort that fits. -/
theorem ofJson?_eq_findSome? (j : Json) : ofJson? j = Form.all.findSome? fun f => f.read? j := by
  cases j with
  | null => rfl
  | bool b => rfl
  | number negative numeral =>
    cases h : Json.number? negative numeral with
    | none => simp [ofJson?, Form.all, Form.read?, h]
    | some n =>
      cases n with
      | integer n =>
        by_cases hn : n < Decimal.int64Count
        · simp [ofJson?, Form.all, Form.read?, h, Json.Number.int64?, hn]
        · have hsize : 0 ≤ n := by omega
          simp [ofJson?, Form.all, Form.read?, h, Json.Number.int64?, Json.Number.toFloat, hn, hsize]
      | real x => simp [ofJson?, Form.all, Form.read?, h, Json.Number.int64?, Json.Number.toFloat]
  | string content =>
    cases content with
    | none => rfl
    | some t => rfl
  | array items =>
    have hlast : (Form.all.findSome? fun f => f.read? (.array items)) = [Form.blob].findSome? fun f => f.read? (.array items) :=
      rfl
    rw [hlast, List.findSome?_singleton]
    rfl
  | object members => rfl

/-! ### What is written of a value -/

variable {v : SqlValue}

theorem prints_toJson (hfloat : v.form ≠ .float) : Prints v.toJson := by
  cases v with
  | null => exact .null
  | bool b => exact .bool b
  | int n => exact .ofInt n.toInt
  | float x => exact absurd rfl hfloat
  | text t => exact .ofText t
  | blob bytes =>
    refine .array fun j hj => ?_
    obtain ⟨b, -, rfl⟩ := List.mem_map.1 hj
    exact .ofInt b.toNat

/-- Each sort reads back what is written of its values. -/
theorem read?_form (hfloat : v.form ≠ .float) : v.form.read? v.toJson = some v := by
  cases v with
  | null => rfl
  | bool b => rfl
  | int n =>
    have hleast := n.le_toInt
    have hlt := n.toInt_lt
    have hcount : (Decimal.int64Count : Int) = 2 ^ 63 := rfl
    have hsize : (UInt64.size : Int) = 2 ^ 64 := rfl
    have hnumber := Json.number?_ofInt (n := n.toInt) (by omega) (by omega)
    show ((Json.number? (n.toInt < 0) ⟨Decimal.natText n.toInt.natAbs, [], none⟩).bind Json.Number.int64?).map SqlValue.int
      = some (.int n)
    rw [hnumber, Option.bind_some, Json.Number.int64?, if_pos (by omega), Int64.ofInt_toInt]
    rfl
  | float x => exact absurd rfl hfloat
  | text t => rfl
  | blob bytes =>
    have hbyte : ∀ b ∈ bytes, (Json.nat? 256 (.ofInt b.toNat)).map UInt8.ofNat = some (id b) := by
      intro b _
      rw [Json.nat?_ofInt b.toNat_lt (by decide)]
      exact congrArg some b.ofNat_toNat
    have hbytes := Json.mapM_eq_some_map hbyte
    rw [List.map_id] at hbytes
    rw [form, toJson, Form.read?, List.mapM_map]
    exact congrArg (Option.map SqlValue.blob) hbytes

/-- The sorts before its own do not read what is written of a value. -/
theorem read?_of_before (hfloat : v.form ≠ .float) : ∀ f ∈ v.form.before, f.read? v.toJson = none := by
  intro f hf
  cases v with
  | null => cases hf
  | bool b =>
    obtain rfl : f = .null := by simpa [form, Form.before, Form.all] using hf
    rfl
  | int n =>
    have hearlier : f = .null ∨ f = .bool := by simpa [form, Form.before, Form.all] using hf
    rcases hearlier with rfl | rfl <;> rfl
  | float x => exact absurd rfl hfloat
  | text t =>
    have hearlier : f = .null ∨ f = .bool ∨ f = .int ∨ f = .float := by simpa [form, Form.before, Form.all] using hf
    rcases hearlier with rfl | rfl | rfl | rfl <;> rfl
  | blob bytes =>
    have hearlier : f = .null ∨ f = .bool ∨ f = .int ∨ f = .float ∨ f = .text := by
      simpa [form, Form.before, Form.all] using hf
    rcases hearlier with rfl | rfl | rfl | rfl | rfl <;> rfl

/-- **Values without a tag are unambiguous.**  Whatever text is chosen for the JSON of a value that is no double, on one
line or on many, the value is read back: the sorts that are tried before its own refuse it, and its own reads it. -/
theorem ofJson?_of_isText (v : SqlValue) (hfloat : v.form ≠ .float) :
    (Json.read? v.toJson.compact).bind ofJson? = some v ∧ (Json.read? v.toJson.pretty).bind ofJson? = some v ∧
      (∀ t, v.toJson.IsText t → (Json.read? t).bind ofJson? = some v) ∧
      (∀ f ∈ v.form.before, f.read? v.toJson = none) ∧ v.form.read? v.toJson = some v := by
  have hfirst : ofJson? v.toJson = some v := by
    obtain ⟨after, hall⟩ := v.form.exists_all
    rw [ofJson?_eq_findSome?, hall, List.findSome?_append, List.findSome?_eq_none_iff.2 (read?_of_before hfloat),
      List.findSome?_cons, read?_form hfloat]
    rfl
  have hread : ∀ t, v.toJson.IsText t → (Json.read? t).bind ofJson? = some v := by
    intro t ht
    rw [Json.read?_of_isText ht]
    exact hfirst
  exact ⟨hread _ (prints_toJson hfloat).isText_compact, hread _ (prints_toJson hfloat).isText_pretty, hread,
    read?_of_before hfloat, read?_form hfloat⟩

/-- The least integer is read back, although a double would fit it too. -/
theorem ofJson?_least_int :
    (Json.read? "-9223372036854775808".toList).bind ofJson? = some (.int Int64.minValue) :=
  (ofJson?_of_isText (.int Int64.minValue) (by decide)).1

end SqlValue

end JetAdapter
