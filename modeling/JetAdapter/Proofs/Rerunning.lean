import JetAdapter.Proofs.Opacity
import JetAdapter.Proofs.UsedUp

/-!
# The chain of all rules on its own output

A rule leaves no call that it would replace, and the rules behind it make none, so in what the whole chain makes of a text
there is nothing left for the rules that replace functions by name, aggregates and conditional expressions
(`apply_all_again`).  What the chain may find there is an alias whose expression is the name of another alias, and a cast
that has lost an `AS` to a conditional expression; if there is neither, a second run changes nothing.

A copied expression is no call any more if it stood behind a dot, which only the token behind a `TOP` can bring about, and
a copy that starts with a digit may run into a `BY`; `OrderAlias.CopiesApart` leaves both out.
-/

namespace JetAdapter

open Tally (named)

variable {text mid ordered out : SqlText} {q : Query} {w : Tally}

/-! ### What is used up -/

theorem LetterCase.count_eq_zero_iff (hq : Query.ofText text = .ok q) :
    (named ["upper", "lower"]).count .other (Cell.ofText text) = 0 ↔ q.calls isName = [] :=
  Tally.count_named_eq_zero_iff (P := isSpelled) (by decide) handles.naming (fun k t => by simp [isSpelled]) hq

theorem LetterCase.count_eq_zero (h : rename text = .ok out) :
    (named ["upper", "lower"]).count .other (Cell.ofText out) = 0 := by
  obtain ⟨q, hq, hnone⟩ := calls_eq_nil_of_rename h
  exact (count_eq_zero_iff hq).2 hnone

theorem Extract.count_eq_zero_iff (hq : Query.ofText text = .ok q) :
    (named ["extract"]).count .other (Cell.ofText text) = 0 ↔ (q.calls fun t => t.spells "extract".toList) = [] :=
  Tally.count_named_eq_zero_iff (P := isSpelled) (by decide) handles.naming (fun k t => by simp [isSpelled]) hq

theorem Extract.count_named_eq_zero (h : convert text = .ok out) :
    (named ["extract"]).count .other (Cell.ofText out) = 0 := by
  obtain ⟨q, hq, hnone⟩ := calls_eq_nil_of_convert h
  exact (count_eq_zero_iff hq).2 hnone

theorem Locate.count_eq_zero_iff (hq : Query.ofText text = .ok q) :
    (named ["locate"]).count .other (Cell.ofText text) = 0 ↔ step q = .ok none := by
  have hcount : (named ["locate"]).count .other (Cell.ofText text) = 0 ↔ q.calls isCalled = [] :=
    Tally.count_named_eq_zero_iff (P := isSpelled) (by decide) isNaming_isSpelled (fun k t => by simp [isSpelled]) hq
  rw [hcount, ← List.getLast?_eq_none_iff, step]
  cases (q.calls isCalled).getLast? with
  | none => simp
  | some c =>
    cases h : replacement? c.arguments with
    | none => simp [h]
    | some t => simp [h]

theorem Locate.count_named_eq_zero (h : convert text = .ok out) :
    (named ["locate"]).count .other (Cell.ofText out) = 0 := by
  obtain ⟨q, hq, hnone⟩ := convert_eq_ok h
  exact (count_eq_zero_iff hq).2 hnone

theorem Distinct.count_eq_zero_iff (hq : Query.ofText text = .ok q) :
    opened.count .other (Cell.ofText text) = 0 ↔ step q = .ok none := by
  have hfirst : callCount q = 0 ↔ firstCall? q = none := by
    rw [callCount, List.countP_eq_zero, firstCall?, List.findSome?_eq_none_iff]
    refine forall₂_congr fun c hc => ?_
    obtain ⟨-, -, -, hname, -⟩ := Call.mem_among hc
    obtain ⟨aggregate, haggregate⟩ := Option.isSome_iff_exists.1 hname
    rw [haggregate]
    cases c.args with
    | nil => simp [startsDistinct]
    | cons distinct operand => simp [startsDistinct]
  rw [← callCount_eq hq, hfirst, step]
  cases firstCall? q with
  | none => simp
  | some x =>
    obtain ⟨aggregate, c, distinct, operand⟩ := x
    dsimp only
    split
    · simp
    · split <;> simp

theorem Distinct.count_opened_eq_zero (h : convert text = .ok out) : opened.count .other (Cell.ofText out) = 0 := by
  obtain ⟨q, hq, hnone⟩ := convert_eq_ok h
  exact (count_eq_zero_iff hq).2 hnone

/-! ### The chain -/

/-- What the chain makes of a text, rule by rule. -/
theorem RuleChain.apply_all_eq_ok (h : RuleChain.all.apply text = .ok out) :
    ∃ renamed cast extracted located mid ordered, LetterCase.rename text = .ok renamed ∧ Cast.convert renamed = .ok cast ∧
      Extract.convert cast = .ok extracted ∧ Locate.convert extracted = .ok located ∧
      Distinct.convert located = .ok mid ∧ OrderAlias.spellOut mid = .ok ordered ∧
      Conditional.convert ordered = .ok out ∧ RuleChain.apply ⟨Rule.all.take 5⟩ text = .ok mid := by
  rw [apply, all, Rule.all] at h
  simp only [List.foldlM_cons, List.foldlM_nil] at h
  obtain ⟨renamed, hrenamed, h⟩ := Except.bind_eq_ok h
  obtain ⟨cast, hcast, h⟩ := Except.bind_eq_ok h
  obtain ⟨extracted, hextracted, h⟩ := Except.bind_eq_ok h
  obtain ⟨located, hlocated, h⟩ := Except.bind_eq_ok h
  obtain ⟨mid, hmid, h⟩ := Except.bind_eq_ok h
  obtain ⟨ordered, hordered, h⟩ := Except.bind_eq_ok h
  obtain ⟨out', hout, h⟩ := Except.bind_eq_ok h
  obtain rfl : out' = out := Except.ok.inj h
  refine ⟨renamed, cast, extracted, located, mid, ordered, hrenamed, hcast, hextracted, hlocated, hmid, hordered, hout, ?_⟩
  show (Rule.all.take 5).foldlM (fun t r => r.apply t) text = .ok mid
  simp [Rule.all, bind, Except.bind, pure, Except.pure, hrenamed, hcast, hextracted, hlocated, hmid]

/-- Rules that leave a text alone one by one leave it alone as a chain. -/
theorem RuleChain.apply_eq_self {rules : List Rule} (h : ∀ r ∈ rules, r.apply text = .ok text) :
    RuleChain.apply ⟨rules⟩ text = .ok text := by
  show rules.foldlM (fun t r => r.apply t) text = .ok text
  induction rules with
  | nil => rfl
  | cons r rules ih =>
    obtain ⟨hr, hrules⟩ := List.forall_mem_cons.1 h
    rw [List.foldlM_cons, hr]
    exact ih hrules

/-- The last two rules make no call that the others replace. -/
theorem Tally.count_eq_zero_of_last (hw : w.OfReplaced) (hq : Query.ofText mid = .ok q)
    (hapart : OrderAlias.CopiesApart q) (hordered : OrderAlias.spellOut mid = .ok ordered)
    (hout : Conditional.convert ordered = .ok out) (hzero : w.count .other (Cell.ofText mid) = 0) :
    w.count .other (Cell.ofText out) = 0 := by
  obtain ⟨q', hq'⟩ := Query.exists_of_exhaust hout
  exact Conditional.count_eq_zero hw hout (OrderAlias.count_eq_zero hw.unseamed hq hapart hordered hq' hzero)

/-- **The chain of all rules leaves nothing to do but casts and aliases.**  In what it makes of a text no rule finds
anything but the ones for casts and for aliases in an ordering, if the copies of expressions keep to themselves in the
text that the first five rules make.  So where these two find nothing either, a second run returns its input. -/
theorem apply_all_again (text out : SqlText) (h : RuleChain.all.apply text = .ok out)
    (hapart : ∀ mid q, RuleChain.apply ⟨Rule.all.take 5⟩ text = .ok mid → Query.ofText mid = .ok q →
      OrderAlias.CopiesApart q) :
    (∀ r : Rule, r ≠ .cast → r ≠ .orderByAlias → r.apply out = .ok out) ∧
      (Rule.cast.apply out = .ok out → Rule.orderByAlias.apply out = .ok out → RuleChain.all.apply out = .ok out) := by
  obtain ⟨renamed, cast, extracted, located, mid, ordered, hrenamed, hcast, hextracted, hlocated, hmid, hordered, hout,
    hfirst⟩ := RuleChain.apply_all_eq_ok h
  obtain ⟨q, hq, -⟩ := Except.bind_eq_ok hordered
  have hlast : ∀ {w : Tally}, w.OfReplaced → w.count .other (Cell.ofText mid) = 0 → w.count .other (Cell.ofText out) = 0 :=
    fun hw => Tally.count_eq_zero_of_last hw hq (hapart mid q hfirst hq) hordered hout
  have hupper : (named ["upper", "lower"]).OfReplaced := by decide
  have hextract : (named ["extract"]).OfReplaced := by decide
  have hlocate : (named ["locate"]).OfReplaced := by decide
  have hdistinct : Distinct.opened.OfReplaced := by decide
  -- each rule uses its calls up, and the others behind it make none
  have hnoUpper := hlast hupper <| Distinct.count_eq_zero hupper hmid <| Locate.count_eq_zero hupper hlocated <|
    Extract.count_eq_zero hupper Tally.ofCalls_named rfl hextracted <|
      Cast.count_eq_zero hupper Tally.ofCalls_named rfl hcast <| LetterCase.count_eq_zero hrenamed
  have hnoExtract := hlast hextract <| Distinct.count_eq_zero hextract hmid <| Locate.count_eq_zero hextract hlocated <|
    Extract.count_named_eq_zero hextracted
  have hnoLocate := hlast hlocate <| Distinct.count_eq_zero hlocate hmid <| Locate.count_named_eq_zero hlocated
  have hnoDistinct := hlast hdistinct <| Distinct.count_opened_eq_zero hmid
  obtain ⟨q', hq', hcase⟩ := Conditional.convert_eq_ok hout
  have hrules : ∀ r : Rule, r ≠ .cast → r ≠ .orderByAlias → r.apply out = .ok out := by
    intro r hr hr'
    cases r with
    | upperLower => exact LetterCase.rename_eq_self hq' ((LetterCase.count_eq_zero_iff hq').1 hnoUpper)
    | cast => exact absurd rfl hr
    | extract => exact Extract.convert_eq_self hq' ((Extract.count_eq_zero_iff hq').1 hnoExtract)
    | locate => exact Query.exhaust_of_step_eq_none hq' ((Locate.count_eq_zero_iff hq').1 hnoLocate)
    | aggregateDistinct => exact Query.exhaust_of_step_eq_none hq' ((Distinct.count_eq_zero_iff hq').1 hnoDistinct)
    | orderByAlias => exact absurd rfl hr'
    | caseWhen => exact Query.exhaust_of_step_eq_none hq' hcase
  refine ⟨hrules, fun hcast hordered => RuleChain.apply_eq_self fun r _ => ?_⟩
  by_cases hr : r = .cast
  · rw [hr]
    exact hcast
  · by_cases hr' : r = .orderByAlias
    · rw [hr']
      exact hordered
    · exact hrules r hr hr'

/-- A conditional expression with a call in it is copied into the ordering, and both copies are translated. -/
theorem apply_all_again_copied_case :
    RuleChain.all.apply "select IIf(a, ucase(b), Null) as x from t order by IIf(a, ucase(b), Null)".toList
      = .ok "select IIf(a, ucase(b), Null) as x from t order by IIf(a, ucase(b), Null)".toList := by
  refine (apply_all_again "select case when a then upper(b) end as x from t order by x".toList _ (by decide +kernel) ?_).2
    (by decide +kernel) (by decide +kernel)
  intro mid q hmid hq
  have hfirst : RuleChain.apply ⟨Rule.all.take 5⟩ "select case when a then upper(b) end as x from t order by x".toList
      = .ok "select case when a then ucase(b) end as x from t order by x".toList := by decide +kernel
  obtain rfl := Except.ok.inj (hfirst.symm.trans hmid)
  exact Query.forall_of_ofText (P := OrderAlias.CopiesApart) (by decide +kernel) q hq

/-- An alias of an alias is spelled out one step further by the second run. -/
theorem not_apply_all_again :
    ¬ ∀ text out, RuleChain.all.apply text = .ok out → RuleChain.all.apply out = .ok out := by
  intro h
  have hagain := h "select a as b, b as c from t order by c".toList
    "select a as b, b as c from t order by b".toList (by decide +kernel)
  exact absurd hagain (by decide +kernel)

end JetAdapter
