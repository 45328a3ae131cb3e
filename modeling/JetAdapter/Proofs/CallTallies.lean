import JetAdapter.Proofs.GroupedCalls
import JetAdapter.Proofs.Tallies
import Mathlib.Algebra.GroupWithZero.Nat

/-!
# Counting calls by their groups

A tally goes from cell to cell and cannot see what a group in parentheses belongs to.  For a tally of calls it makes no
difference: what it counts in the cells of a grouping is the sum of what it counts for each call of the grouping
(`Tally.count_grouping`).  So nothing is counted in a text just if no call of its grouping counts (`Tally.count_eq_zero_iff`).
-/

namespace JetAdapter

open Token (Reads)

namespace Distinct

/-- Whether the cell is a `DISTINCT`. -/
def isWord : Cell → Bool
  | .token (.keyword .DISTINCT) _ => true
  | _ => false

/-- Whether the grouping starts with `DISTINCT`. -/
def startsWord : Grouping → Bool
  | .leaf l _ => isWord l.cell
  | _ => false

theorem isWord_cell (t : Token) : isWord t.cell = t.isKeyword .DISTINCT := by
  show isWord (.token t.kind t.text) = decide (t.kind = .keyword .DISTINCT)
  cases t.kind with
  | keyword k => cases k <;> rfl
  | _ => rfl

theorem exists_of_isWord {c : Cell} (h : isWord c = true) : ∃ w, c = .token (.keyword .DISTINCT) w := by
  unfold isWord at h
  split at h
  · exact ⟨_, rfl⟩
  · cases h

end Distinct

namespace Tally

open Distinct (isWord startsWord exists_of_isWord)

variable {w : Tally} {s : Lead} {c : Cell} {g rest : Grouping} {l : Leaf} {text : SqlText} {q : Query}

/-- Whether words count only as the first ones inside a call. -/
structure OfCalls (w : Tally) : Prop where
  distinct : w.distinct = 0
  conditional : w.conditional = 0

/-- What is counted for a call. -/
def ofCall (w : Tally) (x : Leaf × Grouping) : Nat :=
  if w.isName x.1.kind x.1.text then w.call + if startsWord x.2 then w.pending else 0 else 0

/-- What is counted right at the start of a grouping, by what stands before it. -/
def atStart (w : Tally) : Lead → Grouping → Nat
  | .opened, g => if startsWord g then w.pending else 0
  | .name, .group inside _ => w.call + if startsWord inside then w.pending else 0
  | _, _ => 0

theorem atStart_other (w : Tally) (g : Grouping) : w.atStart .other g = 0 := by
  cases g <;> rfl

/-- Only a parenthesis behind a name, a `DISTINCT` and a `CASE` count. -/
theorem weigh_of_not (hc : isWord c = false) (hcall : w.call = 0) (hcase : w.conditional = 0) : w.weigh s c = 0 := by
  unfold weigh
  split
  · split
    · exact hcall
    · rfl
  · cases hc
  · exact hcase
  · rfl

theorem next_leaf (w : Tally) (s : Lead) (l : Leaf) : w.next s l.cell
    = if l.isSymbol .dot then .dot else if w.isName l.kind l.text = true ∧ s ≠ .dot then .name else .other := by
  rcases token_cases w l.kind l.text with h | h | ⟨h, hl, hd⟩
  · exact absurd h l.left
  · rw [Leaf.isSymbol, h, Leaf.cell, h]
    rfl
  · have hdot : l.isSymbol .dot = false := by simpa [Leaf.isSymbol, Kind.isSymbol] using hd
    rw [Leaf.cell, h, hdot]
    rfl

theorem weigh_leaf (hw : w.OfCalls) (s : Lead) (l : Leaf) (rest : Grouping) :
    w.weigh s l.cell = w.atStart s (.leaf l rest) := by
  cases hc : isWord l.cell with
  | false =>
    have hzero : w.weigh s l.cell = 0 := by
      unfold weigh
      split
      · next h => exact absurd (Cell.token.inj h).1 l.left
      · next h => rw [h] at hc; cases hc
      · exact hw.conditional
      · rfl
    rw [hzero]
    cases s <;> simp [atStart, startsWord, hc]
  | true =>
    obtain ⟨v, hv⟩ := exists_of_isWord hc
    rw [hv]
    cases s <;> simp [atStart, startsWord, hc, weigh, hw.distinct]

/-- Behind a leaf only a group can be counted at its start. -/
theorem atStart_next (hne : ∀ inside rest, g ≠ .group inside rest) (s : Lead) (l : Leaf) :
    w.atStart (w.next s l.cell) g = 0 := by
  rw [next_leaf]
  split
  · cases g <;> rfl
  · split
    · cases g with
      | group inside rest => exact absurd rfl (hne inside rest)
      | nil | leaf | comma => rfl
    · exact atStart_other w g

theorem next_eq_dot_iff (w : Tally) (s : Lead) (l : Leaf) : w.next s l.cell = .dot ↔ l.isSymbol .dot = true := by
  rw [next_leaf]
  cases l.isSymbol .dot with
  | true => simp
  | false => simp; split <;> simp

/-- **What a tally of calls counts is counted for each call.** -/
theorem count_grouping (hw : w.OfCalls) (s : Lead) (g : Grouping) : w.count s g.cells
    = w.atStart s g + ((g.calls (s = .dot)).map w.ofCall).sum := by
  induction g generalizing s with
  | nil => cases s <;> rfl
  | comma rest ih =>
    have hquiet : w.Quiet (Cell.sign ',') := quiet_sign (.inr rfl)
    rw [Grouping.cells, hquiet.count, ih, atStart_other, Grouping.calls]
    cases s <;> simp [atStart, startsWord]
  | group inside rest ihInside ihRest =>
    have hright : w.Quiet (Cell.sign ')') := quiet_sign (.inl rfl)
    rw [Grouping.cells, count_cons, count_append, hright.count, ihRest, weigh_sign_left, next_sign_left, ihInside,
      Grouping.calls, List.map_append, List.sum_append, atStart_other]
    cases s
    case name =>
      simp [atStart]
      omega
    all_goals simp [atStart, startsWord]
  | leaf l rest ih =>
    rw [Grouping.cells, count_cons, ih, weigh_leaf hw s l rest]
    congr 1
    have hdot : decide (w.next s l.cell = .dot) = l.isSymbol .dot := by
      cases h : l.isSymbol .dot with
      | true => exact decide_eq_true ((next_eq_dot_iff w s l).2 h)
      | false => exact decide_eq_false fun hd => by simp [(next_eq_dot_iff w s l).1 hd] at h
    rcases rest.eq_group_or with ⟨inside, rest, rfl⟩ | hne
    · -- The name before the parenthesis decides.
      simp only [Grouping.calls, List.map_append, List.sum_append]
      rw [← Nat.add_assoc, ← Nat.add_assoc]
      congr 2
      rw [next_leaf]
      cases hdot : l.isSymbol .dot with
      | true =>
        have hk : l.kind = .symbol .dot := Kind.isSymbol_iff.1 hdot
        have hnot : w.ofCall (l, inside) = 0 := by simp [ofCall, hk, isName]
        cases s <;> simp [atStart, hnot]
      | false =>
        cases hname : w.isName l.kind l.text <;> cases s <;> simp [atStart, ofCall, hname]
    · rw [Grouping.calls_leaf_of_ne hne, atStart_next hne, Nat.zero_add, hdot]

/-- Nothing is counted in a text just if no call counts. -/
theorem count_eq_zero_iff (hw : w.OfCalls) (hq : Query.ofText text = .ok q) (hg : Reads 0 g.cells q.tokens) :
    w.count .other (Cell.ofText text) = 0 ↔ ∀ x ∈ g.calls false, w.ofCall x = 0 := by
  have hcells : (Cell.ofText text).filter Cell.isToken = g.cells := by rw [← (Query.reads hq).cells, hg.cells]
  rw [← count_filter, hcells, count_grouping hw, atStart_other, Nat.zero_add, List.sum_eq_zero_iff_forall_eq_nat,
    List.forall_mem_map]
  rfl

end Tally

end JetAdapter
