import JetAdapter.Rule.Chain
import Mathlib.Data.List.Destutter
import Mathlib.Data.List.Induction
import Mathlib.Data.List.Nodup

/-!
# Chains of rules are sets

A chain is made from all rules, from none or from a list, and then rules are enabled and disabled in any order.  Its
rules always stand in the order of application, each of them once (`Ordered`): every change keeps this.  Whether a rule is
among them is a matter of the last change that is about it.  As a list in this order is known by its members
(`Rule.eq_of_mem_iff`), applying a chain is going through all rules and applying those that are enabled, and nothing
depends on the order or the repetitions of the lists that chains are made from (`chain_as_set`).

The order of application is the order in which the rules are declared.  So a list of rules can be brought into it by
sorting it and leaving out what stands twice, and these are the rules of its chain (`rules_ofList`).
-/

namespace JetAdapter

/-! ### The order of rules -/

namespace Rule

/-- Whether a rule is applied before another one. -/
def Precedes (r s : Rule) : Prop :=
  all.idxOf r < all.idxOf s

instance : DecidableRel Precedes :=
  fun _ _ => inferInstanceAs (Decidable (_ < _))

/-- Rules are applied in the order in which they are declared. -/
theorem precedes_iff (r s : Rule) : r.Precedes s ↔ r.ctorIdx < s.ctorIdx := by
  cases r <;> cases s <;> decide

theorem eq_of_ctorIdx_eq {r s : Rule} : r.ctorIdx = s.ctorIdx → r = s := by
  cases r <;> cases s <;> decide

theorem Precedes.trans {r s t : Rule} (h : r.Precedes s) (h' : s.Precedes t) : r.Precedes t :=
  Nat.lt_trans h h'

/-- A list of rules in the order of application is known by its members. -/
theorem eq_of_mem_iff {rules rules' : List Rule} (h : rules.Pairwise Precedes) (h' : rules'.Pairwise Precedes)
    (hmem : ∀ r, r ∈ rules ↔ r ∈ rules') : rules = rules' := by
  have hnodup : ∀ {rs : List Rule}, rs.Pairwise Precedes → rs.Nodup := by
    intro rs hrs
    refine hrs.imp fun {r s} hr hrs => ?_
    subst hrs
    exact Nat.lt_irrefl _ hr
  have hperm : rules.Perm rules' := (List.perm_ext_iff_of_nodup (hnodup h) (hnodup h')).2 hmem
  refine hperm.eq_of_pairwise (fun r s _ _ hr hs => ?_) h h'
  exact absurd (hr.trans hs) (Nat.lt_irrefl _)

/-! ### Sorted lists -/

/-- The rules of a list in the order of declaration, and what stands twice only once. -/
def arranged (rules : List Rule) : List Rule :=
  (rules.mergeSort fun r s => r.ctorIdx ≤ s.ctorIdx).destutter (· ≠ ·)

theorem mem_destutter' {r s : Rule} {rules : List Rule} :
    r ∈ rules.destutter' (· ≠ ·) s ↔ r ∈ s :: rules := by
  induction rules generalizing s with
  | nil => rfl
  | cons t rules ih =>
    by_cases h : s = t
    · subst h
      rw [List.destutter'_cons_neg _ (fun hne => hne rfl), ih]
      simp
    · rw [List.destutter'_cons_pos _ h, List.mem_cons, ih, ← List.mem_cons]

theorem mem_arranged {r : Rule} {rules : List Rule} : r ∈ arranged rules ↔ r ∈ rules := by
  have hsort : r ∈ rules.mergeSort (fun r s => r.ctorIdx ≤ s.ctorIdx) ↔ r ∈ rules := List.mem_mergeSort
  rw [← hsort, arranged]
  cases rules.mergeSort fun r s => decide (r.ctorIdx ≤ s.ctorIdx) with
  | nil => rfl
  | cons s rules => exact mem_destutter'

/-- In a sorted list without repetitions side by side no rule stands twice. -/
theorem pairwise_of_isChain {rules : List Rule} (hsorted : rules.Pairwise fun r s => r.ctorIdx ≤ s.ctorIdx)
    (happart : rules.IsChain (· ≠ ·)) : rules.Pairwise Precedes := by
  induction rules with
  | nil => exact .nil
  | cons r rules ih =>
    obtain ⟨hle, hsorted⟩ := List.pairwise_cons.1 hsorted
    cases rules with
    | nil => exact List.pairwise_singleton _ _
    | cons s rules =>
      obtain ⟨hne, happart⟩ := List.isChain_cons_cons.1 happart
      have hordered := ih hsorted happart
      have hrs : r.Precedes s := by
        have hindex : r.ctorIdx ≠ s.ctorIdx := fun he => hne (eq_of_ctorIdx_eq he)
        have := hle s List.mem_cons_self
        rw [precedes_iff]
        omega
      refine List.pairwise_cons.2 ⟨fun t ht => ?_, hordered⟩
      rcases List.mem_cons.1 ht with rfl | ht
      · exact hrs
      · exact hrs.trans ((List.pairwise_cons.1 hordered).1 t ht)

theorem pairwise_arranged (rules : List Rule) : (arranged rules).Pairwise Precedes := by
  have hsorted : (rules.mergeSort fun r s => r.ctorIdx ≤ s.ctorIdx).Pairwise fun r s => r.ctorIdx ≤ s.ctorIdx := by
    have htrans : ∀ r s t : Rule, decide (r.ctorIdx ≤ s.ctorIdx) = true → decide (s.ctorIdx ≤ t.ctorIdx) = true →
        decide (r.ctorIdx ≤ t.ctorIdx) = true := by
      intro r s t hrs hst
      simp only [decide_eq_true_eq] at *
      omega
    have htotal : ∀ r s : Rule, (decide (r.ctorIdx ≤ s.ctorIdx) || decide (s.ctorIdx ≤ r.ctorIdx)) = true := by
      intro r s
      simp only [Bool.or_eq_true, decide_eq_true_eq]
      omega
    simpa using List.pairwise_mergeSort htrans htotal rules
  exact pairwise_of_isChain (hsorted.sublist (List.destutter_sublist _ _)) (List.isChain_destutter _ _)

/-! ### Applying some of the rules -/

/-- Goes through all rules in the order of application and applies those that are enabled, up to the first error. -/
def applyThose (enabled : Rule → Bool) (text : SqlText) : Except SqlError SqlText :=
  all.foldlM (fun t r => if enabled r then r.apply t else .ok t) text

end Rule

namespace RuleChain

/-! ### Making chains -/

/-- What a chain is made from. -/
inductive Start
  | all
  | none
  | ofList (rules : List Rule)

/-- The chain at the start. -/
def Start.chain : Start → RuleChain
  | .all => .all
  | .none => .none
  | .ofList rules => .ofList rules

/-- The rules that are enabled at the start. -/
def Start.rules : Start → List Rule
  | .all => Rule.all
  | .none => []
  | .ofList rules => rules

/-- A rule that is enabled or disabled. -/
structure Change where
  rule : Rule
  enables : Bool

/-- The chain after a change. -/
def Change.apply (chain : RuleChain) (c : Change) : RuleChain :=
  if c.enables then chain.enable c.rule else chain.disable c.rule

/-- The chain after some changes. -/
def changed (chain : RuleChain) (changes : List Change) : RuleChain :=
  changes.foldl Change.apply chain

/-- Whether a rule is enabled by the last change that is about it, or at the start if none is. -/
def lastSaid (start : Start) (changes : List Change) (r : Rule) : Bool :=
  match changes.reverse.find? fun c => c.rule = r with
  | some c => c.enables
  | .none => r ∈ start.rules

variable {chain : RuleChain} {r : Rule}

/-- Whether the rules stand in the order of application. -/
def Ordered (chain : RuleChain) : Prop :=
  chain.rules.Pairwise Rule.Precedes

theorem ordered_all : all.Ordered := by
  unfold Ordered
  decide

theorem ordered_ofList (rules : List Rule) : (ofList rules).Ordered :=
  ordered_all.sublist List.filter_sublist

/-- The chain of a list has the rules that are found by sorting it. -/
theorem rules_ofList (rules : List Rule) : (ofList rules).rules = Rule.arranged rules := by
  refine Rule.eq_of_mem_iff (ordered_ofList rules) (Rule.pairwise_arranged rules) fun r => ?_
  rw [mem_ofList, Rule.mem_arranged]

/-! ### Changing chains -/

theorem Ordered.apply (h : chain.Ordered) (c : Change) : (c.apply chain).Ordered := by
  unfold Change.apply
  split
  · exact ordered_ofList _
  · exact h.sublist List.filter_sublist

theorem mem_apply (c : Change) :
    r ∈ (c.apply chain).rules ↔ if c.rule = r then c.enables = true else r ∈ chain.rules := by
  unfold Change.apply
  by_cases henables : c.enables = true
  · rw [if_pos henables, enable, mem_ofList, List.mem_cons]
    by_cases hr : c.rule = r
    · simp [hr, henables]
    · simp [hr, Ne.symm hr]
  · rw [if_neg henables, disable, List.mem_filter]
    by_cases hr : c.rule = r
    · simp [hr, henables]
    · simp [hr, Ne.symm hr]

theorem Ordered.changed (h : chain.Ordered) (changes : List Change) : (chain.changed changes).Ordered := by
  induction changes generalizing chain with
  | nil => exact h
  | cons c changes ih => exact ih (h.apply c)

theorem Start.ordered (start : Start) : start.chain.Ordered := by
  cases start with
  | all => exact ordered_all
  | none => exact .nil
  | ofList rules => exact ordered_ofList rules

theorem Start.mem_chain (start : Start) : r ∈ start.chain.rules ↔ r ∈ start.rules := by
  cases start with
  | all => rfl
  | none => rfl
  | ofList rules => exact mem_ofList

/-- By induction from the last change: it decides for its own rule and leaves the others to those before it. -/
theorem mem_changed (start : Start) (changes : List Change) :
    r ∈ (start.chain.changed changes).rules ↔ lastSaid start changes r = true := by
  induction changes using List.reverseRecOn with
  | nil =>
    rw [changed, List.foldl_nil, start.mem_chain]
    simp [lastSaid]
  | append_singleton changes c ih =>
    rw [changed, List.foldl_concat, mem_apply, ← changed, ih]
    unfold lastSaid
    rw [List.reverse_concat, List.find?_cons]
    by_cases hr : c.rule = r
    · simp [hr]
    · simp [hr]

/-- Applying a chain is going through all rules and applying those in it. -/
theorem Ordered.apply_eq (h : chain.Ordered) {enabled : Rule → Bool} (hmem : ∀ r, r ∈ chain.rules ↔ enabled r = true)
    (text : SqlText) : chain.apply text = Rule.applyThose enabled text := by
  have hrules : chain.rules = Rule.all.filter enabled := by
    refine Rule.eq_of_mem_iff h (ordered_all.sublist List.filter_sublist) fun r => ?_
    rw [hmem, List.mem_filter]
    exact ⟨fun he => ⟨Rule.mem_all r, he⟩, fun hr => hr.2⟩
  rw [RuleChain.apply, hrules, List.foldlM_filter]
  rfl

end RuleChain

open RuleChain

/-- **Chains of rules are sets.**  However a chain was made and changed, its rules stand in the order of application,
each of them once, and they are those that were enabled when they were last spoken of.  Applied, they are applied one after
the other in that order, up to the first error.  A chain of a list has the rules of the list, sorted and without
repetitions, so lists with the same members make chains that do the same. -/
theorem chain_as_set (start : Start) (changes : List Change) :
    (start.chain.changed changes).rules.Pairwise Rule.Precedes ∧
    (∀ r, r ∈ (start.chain.changed changes).rules ↔ lastSaid start changes r = true) ∧
    (∀ text, (start.chain.changed changes).apply text = Rule.applyThose (lastSaid start changes) text) ∧
    (∀ rules, (ofList rules).rules = Rule.arranged rules) ∧
    ∀ rules rules', (∀ r, r ∈ rules ↔ r ∈ rules') → ∀ text,
      (ofList rules).apply text = (ofList rules').apply text ∧
      (ofList rules).apply text = Rule.applyThose (fun r => r ∈ rules) text := by
  have hordered := start.ordered.changed changes
  refine ⟨hordered, fun r => mem_changed start changes, hordered.apply_eq fun r => mem_changed start changes,
    rules_ofList, fun rules rules' hsame text => ⟨?_, ?_⟩⟩
  · have hrules : ofList rules = ofList rules' := by
      unfold ofList
      simp only [hsame]
    rw [hrules]
  · refine (ordered_ofList rules).apply_eq (fun r => ?_) text
    rw [mem_ofList, decide_eq_true_iff]

example : (RuleChain.none.changed [⟨.cast, true⟩, ⟨.upperLower, true⟩, ⟨.cast, false⟩, ⟨.cast, true⟩]).rules
    = [.upperLower, .cast] := by decide

end JetAdapter
