import JetAdapter.Guarded.Join
import JetAdapter.Proofs.Excerpts
import JetAdapter.Proofs.GuardedOrderings

/-!
# Guarded joins

Nesting joins makes no step that must not be made.  The operators of a block are found by going over it once.  At a
`JOIN` the part since the `JOIN` before it has been gone over, so it does not end with a `FULL` or a `CROSS`, and with
an `OUTER` behind one of them neither (`Scans`): otherwise the run has stopped there.  So what is found is the chain of
the block (`findJoins_cases`), and there is a token before each further operator, since no operand is empty.
-/

namespace JetAdapter

open Guarded (ok_bind pure_eq_ok lift lift_bind lift_map lift_ok refuse minus_eq)

variable {T : TokenTable} {q : Query} {r : TokenRange} {t u : Token} {ts part block : List Token}
  {i depth first start stop : Nat} {tail : List Cell}

theorem Token.isKeyword_eq_decide (t : Token) (k : Keyword) : t.isKeyword k = decide (t.kind.keyword? = some k) := by
  rw [isKeyword, Kind.isKeyword]
  cases t.kind <;> simp [Kind.keyword?]

/-- A word that stands behind another one stands at the same depth. -/
theorem Query.IsRead.depth_next {k k' : Keyword} (h : q.IsRead tail) (ht : q.tokens[i]? = some t)
    (hu : q.tokens[i + 1]? = some u) (hk : t.isKeyword k = true) (hk' : u.isKeyword k' = true) : u.depth = t.depth := by
  have hr : CoversTokens q ⟨i, i + 2⟩ [t, u] := .cons ht (.cons hu (.nil q _))
  obtain ⟨as, bs, hq, -⟩ := hr.exists_eq (List.cons_ne_nil _ _)
  have hn := h.nested
  rw [hq] at hn
  have hnext := hn.next
  rwa [if_neg (by simp [Token.isSymbol_eq_false_of_isKeyword hk]),
    if_neg (by simp [Token.isSymbol_eq_false_of_isKeyword hk'])] at hnext

namespace JoinChain

theorem cut_cons_join (h : t.isKeywordAt depth .JOIN = true) :
    cut depth (t :: ts) = ([], ⟨t, (cut depth ts).1⟩ :: (cut depth ts).2) := by
  rw [cut]
  exact if_pos h

theorem cut_cons_other (h : t.isKeywordAt depth .JOIN = false) :
    cut depth (t :: ts) = (t :: (cut depth ts).1, (cut depth ts).2) := by
  rw [cut]
  exact if_neg (Bool.eq_false_iff.1 h)

end JoinChain

namespace Guarded

open JoinChain (cut cut_cons_join cut_cons_other dropOperator dropOperators unknownSide)

/-! ### Going over a block -/

/-- How far a block that starts at `first` and ends before `stop` has been gone over: since its start or the last
`JOIN` there was the part from `start` on, without a side that Jet does not know, and these tokens are left. -/
structure Scans (T : TokenTable) (q : Query) (depth first stop start : Nat) (part ts : List Token) : Prop where
  covers : CoversTokens q ⟨start, stop⟩ (part ++ ts)
  before : start = first ∨ first < start ∧ ∃ j, q.tokens[start - 1]? = some j ∧ j.isKeyword .JOIN = true
  passed : ∀ i t, start ≤ i → i < start + part.length → q.tokens[i]? = some t → t.depth = depth →
    (t.isKeyword .FULL || t.isKeyword .CROSS) = true → joinFollows T (i + 1) stop = false

theorem Scans.push (h : Scans T q depth first stop start part (t :: ts))
    (ht : t.depth = depth → (t.isKeyword .FULL || t.isKeyword .CROSS) = true →
      joinFollows T (start + part.length + 1) stop = false) :
    Scans T q depth first stop start (part ++ [t]) ts := by
  refine ⟨?_, h.before, fun i u hle hlt hu hdepth hside => ?_⟩
  · rw [List.append_assoc]
    exact h.covers
  · rw [List.length_append, List.length_singleton] at hlt
    rcases Nat.lt_or_eq_of_le (Nat.le_of_lt_succ hlt) with hlt | rfl
    · exact h.passed i u hle hlt hu hdepth hside
    · obtain rfl : t = u := Option.some.inj (h.covers.getElem?.symm.trans hu)
      exact ht hdepth hside

/-- Behind a `JOIN` a new part starts. -/
theorem Scans.next (h : Scans T q depth first stop start part (t :: ts)) (hle : first ≤ start)
    (ht : t.isKeyword .JOIN = true) : Scans T q depth first stop (start + part.length + 1) [] ts :=
  ⟨h.covers.right.tail, .inr ⟨by omega, t, h.covers.getElem?, ht⟩, fun i _ hle hlt => by
    rw [List.length_nil] at hlt
    omega⟩

theorem Scans.first_le (h : Scans T q depth first stop start part ts) : first ≤ start := by
  rcases h.before with rfl | ⟨hlt, -⟩
  · exact Nat.le_refl _
  · exact Nat.le_of_lt hlt

/-- A part that a `JOIN` follows does not end with a side that Jet does not know. -/
theorem Scans.not_side {front : List Token} {side : Token} (h : T.Holds q)
    (hs : Scans T q depth first stop start (front ++ [side]) (t :: ts)) (ht : t.isKeywordAt depth .JOIN = true) :
    (side.isKeyword .FULL || side.isKeyword .CROSS) = false := by
  obtain ⟨cells, hread⟩ := h.read
  obtain ⟨hdepth, hjoin⟩ : t.depth = depth ∧ t.isKeyword .JOIN = true := by simpa [Token.isKeywordAt] using ht
  have hcovers := hs.covers
  rw [List.append_assoc] at hcovers
  have hside := hcovers.getElem?
  have hnext := hcovers.right.tail.head
  have hstop : stop = start + (front ++ ([side] ++ t :: ts)).length := hcovers.stop_eq
  refine Bool.eq_false_iff.2 fun hfull => ?_
  obtain ⟨k, hk⟩ : ∃ k, side.isKeyword k = true := by
    rcases Bool.or_eq_true_iff.1 hfull with hk | hk <;> exact ⟨_, hk⟩
  have hpassed := hs.passed _ side (Nat.le_add_right _ _) (by simp) hside
    ((hread.depth_next hside hnext hk hjoin).symm.trans hdepth) hfull
  have houter : t.isKeyword .OUTER = false := JoinChain.isKeyword_eq_false_of_ne hjoin (by decide)
  simp only [List.length_append, List.length_cons, List.length_nil] at hstop
  simp [joinFollows, h.isKeyword_eq, hnext, houter, hjoin] at hpassed
  omega

/-- Nor does it with an `OUTER` behind one. -/
theorem Scans.not_side_outer {front : List Token} {side outer : Token}
    (hs : Scans T q depth first stop start (front ++ [side, outer]) (t :: ts)) (h : T.Holds q)
    (ht : t.isKeywordAt depth .JOIN = true) (houter : outer.isKeyword .OUTER = true) :
    (side.isKeyword .FULL || side.isKeyword .CROSS) = false := by
  obtain ⟨cells, hread⟩ := h.read
  obtain ⟨hdepth, hjoin⟩ : t.depth = depth ∧ t.isKeyword .JOIN = true := by simpa [Token.isKeywordAt] using ht
  have hcovers := hs.covers
  rw [List.append_assoc] at hcovers
  have hside := hcovers.getElem?
  have hnext := hcovers.right.tail.head
  have hjoins := hcovers.right.tail.tail.head
  have hstop : stop = start + (front ++ ([side, outer] ++ t :: ts)).length := hcovers.stop_eq
  refine Bool.eq_false_iff.2 fun hfull => ?_
  obtain ⟨k, hk⟩ : ∃ k, side.isKeyword k = true := by
    rcases Bool.or_eq_true_iff.1 hfull with hk | hk <;> exact ⟨_, hk⟩
  have hpassed := hs.passed _ side (Nat.le_add_right _ _) (by simp) hside
    ((hread.depth_next hside hnext hk houter).symm.trans
      ((hread.depth_next hnext hjoins houter hjoin).symm.trans hdepth)) hfull
  simp only [List.length_append, List.length_cons, List.length_nil] at hstop
  simp [joinFollows, h.isKeyword_eq, hnext, hjoins, houter, hjoin] at hpassed
  omega

/-- What stands before a part is a `JOIN`, unless the part is at the start of the block. -/
theorem Scans.isKeyword_before {k : Keyword} (hs : Scans T q depth first stop start part ts) (h : T.Holds q)
    (hk : k ≠ .JOIN) (hlt : first < start) : T.isKeyword (start - 1) k = false := by
  rcases hs.before with rfl | ⟨-, j, hj, hjoin⟩
  · exact absurd hlt (Nat.lt_irrefl _)
  · rw [h.isKeyword_eq, hj, Option.any_some]
    exact JoinChain.isKeyword_eq_false_of_ne hjoin hk.symm

/-- Where a part is empty, no words belong to the operator. -/
theorem operatorStart_of_nil (h : T.Holds q) (hs : Scans T q depth first stop start [] ts) :
    operatorStart T first start = .ok start := by
  rw [operatorStart]
  rcases Nat.lt_or_eq_of_le hs.first_le with hlt | rfl
  · have hword : ∀ k, k ≠ .JOIN → T.isKeyword (start - 1) k = false := fun k hk => hs.isKeyword_before h hk hlt
    rw [if_neg (by omega), minus_eq (by omega), ok_bind]
    simp only [hword .INNER (by decide), hword .LEFT (by decide), hword .RIGHT (by decide), hword .OUTER (by decide)]
    rfl
  · exact if_pos rfl

/-- What the last token of a part says about where the operator starts. -/
theorem operatorStart_succ {last : Token} (h : T.Holds q) (hlast : q.tokens[i]? = some last) (hle : first ≤ i) :
    operatorStart T first (i + 1)
      = if last.kind.keyword? = some .INNER ∨ last.kind.keyword? = some .LEFT ∨ last.kind.keyword? = some .RIGHT then .ok i
        else if last.kind.keyword? = some .OUTER then
          if first < i then do
            let side ← minus i 1
            if T.isKeyword side .LEFT || T.isKeyword side .RIGHT then return side
            else refuse (.syntaxError .outerWithoutSide last.span)
          else refuse (.syntaxError .outerWithoutSide last.span)
        else .ok (i + 1) := by
  have hword : ∀ k, T.isKeyword i k = decide (last.kind.keyword? = some k) := by
    intro k
    rw [h.isKeyword_eq, hlast, Option.any_some, Token.isKeyword_eq_decide]
  have hspan : T.spanTo i i = .ok last.span := h.spanTo_eq hlast hlast
  rw [operatorStart, if_neg (by omega), minus_eq (Nat.le_add_left _ _), ok_bind, Nat.add_sub_cancel]
  simp only [hword, hspan, ok_bind, Bool.or_eq_true, decide_eq_true_eq, or_assoc]
  rfl

/-- An `OUTER` before a `JOIN` belongs to its operator with the side before it. -/
theorem operatorStart_of_outer {before : List Token} {outer : Token} (h : T.Holds q)
    (hs : Scans T q depth first stop start (before ++ [outer]) (t :: ts)) (ht : t.isKeywordAt depth .JOIN = true)
    (houter : outer.isKeyword .OUTER = true) :
    operatorStart T first (start + before.length + 1)
      = lift ((dropOperator (before ++ [outer])).map fun operand => start + operand.length) := by
  have hle := hs.first_le
  have hcovers := hs.covers
  rw [List.append_assoc] at hcovers
  have hkind : outer.kind.keyword? = some .OUTER := by
    rwa [Token.isKeyword_eq_decide, decide_eq_true_eq] at houter
  have hstart := operatorStart_succ h hcovers.getElem? (Nat.le_trans hle (Nat.le_add_right _ _))
  rw [if_neg (by simp [hkind]), if_pos hkind] at hstart
  rw [dropOperator, List.reverse_append, List.reverse_singleton, List.singleton_append]
  simp only [hkind]
  rcases List.eq_nil_or_concat before with rfl | ⟨more, side, rfl⟩
  · rw [hstart]
    rcases Nat.lt_or_eq_of_le hle with hlt | rfl
    · have hword : ∀ k, k ≠ .JOIN → T.isKeyword (start - 1) k = false := fun k hk => hs.isKeyword_before h hk hlt
      simp [hlt, minus_eq (show 1 ≤ start by omega), hword .LEFT (by decide), hword .RIGHT (by decide)]
      rfl
    · simp
      rfl
  rw [List.concat_eq_append, List.append_assoc] at *
  have hside : q.tokens[start + more.length]? = some side := hcovers.getElem?
  have hunknown := hs.not_side_outer h ht houter
  rw [Token.isKeyword_eq_decide, Token.isKeyword_eq_decide] at hunknown
  have hindex : start + (more ++ [side]).length = start + more.length + 1 := by
    rw [List.length_append, List.length_singleton, Nat.add_assoc]
  rw [hindex, if_pos (by omega), minus_eq (Nat.le_add_left _ _), ok_bind, Nat.add_sub_cancel] at hstart
  simp only [h.isKeyword_eq, hside, Option.any_some, Token.isKeyword_eq_decide, Bool.or_eq_true, decide_eq_true_eq] at hstart
  rw [hindex, List.reverse_append, List.reverse_singleton, List.singleton_append]
  simp only
  split
  · next heq => simp [heq] at hunknown
  · next heq => simp [heq] at hunknown
  · next heq =>
    rw [List.reverse_reverse]
    exact hstart.trans (if_pos (.inl heq))
  · next heq =>
    rw [List.reverse_reverse]
    exact hstart.trans (if_pos (.inr heq))
  · next hleft hright => exact hstart.trans (if_neg fun h => h.elim hleft hright)

/-- At a `JOIN` the words of its operator are those that the part before it ends with. -/
theorem operatorStart_eq (h : T.Holds q) (hs : Scans T q depth first stop start part (t :: ts))
    (ht : t.isKeywordAt depth .JOIN = true) :
    operatorStart T first (start + part.length)
      = lift ((dropOperator part).map fun operand => start + operand.length) := by
  rcases List.eq_nil_or_concat part with rfl | ⟨before, last, rfl⟩
  · exact operatorStart_of_nil h hs
  rw [List.concat_eq_append] at *
  rw [List.length_append, List.length_singleton, ← Nat.add_assoc]
  cases houter : last.isKeyword .OUTER with
  | true => exact operatorStart_of_outer h hs ht houter
  | false =>
    have hcovers := hs.covers
    rw [List.append_assoc] at hcovers
    have hstart := operatorStart_succ h hcovers.getElem? (Nat.le_trans hs.first_le (Nat.le_add_right _ _))
    have hside := hs.not_side h ht
    rw [Token.isKeyword_eq_decide, Token.isKeyword_eq_decide] at hside
    rw [Token.isKeyword_eq_decide, decide_eq_false_iff_not] at houter
    rw [dropOperator, List.reverse_append, List.reverse_singleton, List.singleton_append]
    simp only
    split
    · next heq => simp [heq] at hside
    · next heq => simp [heq] at hside
    · next heq =>
      rw [List.reverse_reverse]
      exact hstart.trans (if_pos (.inl heq))
    · next heq =>
      rw [List.reverse_reverse]
      exact hstart.trans (if_pos (.inr (.inl heq)))
    · next heq =>
      rw [List.reverse_reverse]
      exact hstart.trans (if_pos (.inr (.inr heq)))
    · next heq => exact absurd heq houter
    · next hinner hleft hright _ =>
      have hlength : (before ++ [last]).length = before.length + 1 := List.length_append
      rw [hstart, if_neg fun h => h.elim hinner fun h => h.elim hleft hright, if_neg houter, Nat.add_assoc, ← hlength]
      rfl

/-- The operators between the parts of a block, the first of which stands from `start` on. -/
def operatorsFrom (first start : Nat) (part : List Token) : List JoinLink → Except SqlError (List JoinOperator)
  | [] => .ok []
  | link :: links => do
    let operand ← dropOperator part
    if start + operand.length = first then .error (.syntaxError .joinWithoutLeftOperand link.join.span)
    else
      return ⟨start + operand.length, start + part.length⟩
        :: (← operatorsFrom first (start + part.length + 1) link.operand links)

theorem dropOperator_of_side {front : List Token} {side : Token}
    (hside : (side.isKeyword .FULL || side.isKeyword .CROSS) = true) :
    dropOperator (front ++ [side]) = .error (unknownSide side) := by
  rw [Token.isKeyword_eq_decide, Token.isKeyword_eq_decide, Bool.or_eq_true, decide_eq_true_eq, decide_eq_true_eq] at hside
  rw [dropOperator, List.reverse_append, List.reverse_singleton, List.singleton_append]
  rcases hside with hside | hside <;> simp only [hside]

theorem dropOperator_of_side_outer {front : List Token} {side outer : Token}
    (hside : (side.isKeyword .FULL || side.isKeyword .CROSS) = true) (houter : outer.isKeyword .OUTER = true) :
    dropOperator (front ++ [side, outer]) = .error (unknownSide side) := by
  rw [Token.isKeyword_eq_decide, Token.isKeyword_eq_decide, Bool.or_eq_true, decide_eq_true_eq, decide_eq_true_eq] at hside
  rw [Token.isKeyword_eq_decide, decide_eq_true_eq] at houter
  rw [dropOperator, List.reverse_append]
  rcases hside with hside | hside <;> simp [hside, houter]

/-- Where a `JOIN` follows a side that Jet does not know, the part before that `JOIN` cannot be understood. -/
theorem operatorsFrom_of_side (h : T.Holds q) (hr : CoversTokens q ⟨i, stop⟩ (t :: ts)) (ht : t.depth = depth)
    (hside : (t.isKeyword .FULL || t.isKeyword .CROSS) = true) (hfollows : joinFollows T (i + 1) stop = true) :
    operatorsFrom first start (part ++ (cut depth (t :: ts)).1) (cut depth (t :: ts)).2 = .error (unknownSide t) := by
  obtain ⟨cells, hread⟩ := h.read
  have hstop : stop = i + (t :: ts).length := hr.stop_eq
  obtain ⟨k, hk, hne⟩ : ∃ k, t.isKeyword k = true ∧ k ≠ .JOIN := by
    rcases Bool.or_eq_true_iff.1 hside with hk | hk <;> exact ⟨_, hk, by decide⟩
  have hnot : ∀ {u : Token} {k : Keyword}, u.isKeyword k = true → k ≠ .JOIN → u.isKeywordAt depth .JOIN = false := by
    intro u k hk hne
    simp [Token.isKeywordAt, JoinChain.isKeyword_eq_false_of_ne hk hne]
  have hjoinAt : ∀ {u : Token}, u.depth = depth → u.isKeyword .JOIN = true → u.isKeywordAt depth .JOIN = true := by
    intro u hdepth hjoin
    simp [Token.isKeywordAt, hdepth, hjoin]
  rw [joinFollows, Bool.and_eq_true_iff, decide_eq_true_eq] at hfollows
  obtain ⟨hlt, hword⟩ := hfollows
  cases ts with
  | nil =>
    rw [List.length_singleton] at hstop
    split at hlt <;> omega
  | cons u us =>
    have hu := hr.tail.head
    have houters : T.isKeyword (i + 1) .OUTER = u.isKeyword .OUTER := by rw [h.isKeyword_eq, hu, Option.any_some]
    rw [houters] at hlt hword
    cases houter : u.isKeyword .OUTER with
    | false =>
      rw [houter, if_neg Bool.false_ne_true, h.isKeyword_eq, hu, Option.any_some] at hword
      have hdepth := (hread.depth_next hr.head hu hk hword).trans ht
      rw [cut_cons_other (hnot hk hne), cut_cons_join (hjoinAt hdepth hword), operatorsFrom, dropOperator_of_side hside]
      rfl
    | true =>
      rw [houter, if_pos rfl] at hlt hword
      cases us with
      | nil =>
        rw [List.length_cons, List.length_singleton] at hstop
        omega
      | cons j vs =>
        have hj := hr.tail.tail.head
        rw [h.isKeyword_eq, hj, Option.any_some] at hword
        have hdepth := (hread.depth_next hu hj houter hword).trans ((hread.depth_next hr.head hu hk houter).trans ht)
        rw [cut_cons_other (hnot hk hne), cut_cons_other (hnot houter (by decide)),
          cut_cons_join (hjoinAt hdepth hword), operatorsFrom, dropOperator_of_side_outer hside houter]
        rfl

/-- Going over a block finds the operators between its parts. -/
theorem operators_eq (h : T.Holds q) (hs : Scans T q depth first stop start part ts) :
    operators T depth ⟨first, stop⟩ (List.range' (start + part.length) ts.length)
      = lift (operatorsFrom first start (part ++ (cut depth ts).1) (cut depth ts).2) := by
  induction ts generalizing start part with
  | nil => rfl
  | cons t ts ih =>
    have ht := hs.covers.getElem?
    have hbehind : CoversTokens q ⟨start + part.length, stop⟩ (t :: ts) := hs.covers.right
    -- A token that is no `JOIN` of the block belongs to the part.
    have hskip : t.isKeywordAt depth .JOIN = false → (t.depth = depth →
        (t.isKeyword .FULL || t.isKeyword .CROSS) = true → joinFollows T (start + part.length + 1) stop = false) →
        operators T depth ⟨first, stop⟩ (List.range' (start + part.length + 1) ts.length)
          = lift (operatorsFrom first start (part ++ (cut depth (t :: ts)).1) (cut depth (t :: ts)).2) := by
      intro hj hside
      have hrest := ih (hs.push hside)
      rw [List.length_append, List.length_singleton, ← Nat.add_assoc, List.append_assoc] at hrest
      rw [hrest, cut_cons_other hj]
      rfl
    rw [List.length_cons, List.range'_succ, operators, h.token_eq ht, ok_bind]
    by_cases hdepth : t.depth = depth
    · rw [if_neg (not_not_intro hdepth)]
      have hword : ∀ k, T.isKeyword (start + part.length) k = t.isKeyword k := by
        intro k
        rw [h.isKeyword_eq, ht, Option.any_some]
      rw [hword, hword, hword]
      cases hside : (t.isKeyword .FULL || t.isKeyword .CROSS) && joinFollows T (start + part.length + 1) stop with
      | true =>
        obtain ⟨hfull, hfollows⟩ := Bool.and_eq_true_iff.1 hside
        rw [if_pos rfl, h.spelling_eq ht, ok_bind, h.spanTo_eq ht ht, ok_bind,
          operatorsFrom_of_side h hbehind hdepth hfull hfollows]
        rfl
      | false =>
        rw [if_neg Bool.false_ne_true]
        cases hj : t.isKeyword .JOIN with
        | true =>
          have hjoin : t.isKeywordAt depth .JOIN = true := by simp [Token.isKeywordAt, hdepth, hj]
          have hrest := ih (hs.next hs.first_le hj)
          rw [List.length_nil, Nat.add_zero, List.nil_append] at hrest
          rw [if_pos rfl, operatorStart_eq h hs hjoin, hrest, cut_cons_join hjoin, List.append_nil, operatorsFrom]
          cases dropOperator part with
          | error e => rfl
          | ok operand =>
            show (if start + operand.length = first then _ else _ : Guarded (List JoinOperator))
              = lift (if start + operand.length = first then _ else _)
            rw [h.spanTo_eq ht ht]
            split
            · rfl
            · cases operatorsFrom first (start + part.length + 1) (cut depth ts).1 (cut depth ts).2 <;> rfl
        | false =>
          rw [if_neg Bool.false_ne_true]
          refine hskip (by simp [Token.isKeywordAt, hj]) fun _ hfull => ?_
          rwa [hfull, Bool.true_and] at hside
    · rw [if_pos hdepth]
      exact hskip (by simp [Token.isKeywordAt, hdepth]) fun h => absurd h hdepth

/-! ### Chains -/

/-- Whether operators are those before the further members of a chain: where each `JOIN` stands, and what it joins. -/
inductive CoversLinks (q : Query) (stop : Nat) : List JoinOperator → List JoinLink → Prop
  | nil : CoversLinks q stop [] []
  | cons {op : JoinOperator} {ops : List JoinOperator} {link : JoinLink} {links : List JoinLink}
      (join : q.tokens[op.join]? = some link.join)
      (operand : CoversTokens q ⟨op.join + 1, operandStop stop ops⟩ link.operand) (rest : CoversLinks q stop ops links) :
      CoversLinks q stop (op :: ops) (link :: links)

variable {ops : List JoinOperator} {op : JoinOperator} {links others : List JoinLink} {link : JoinLink} {chain : JoinChain}

theorem CoversLinks.length_eq (h : CoversLinks q stop ops links) : ops.length = links.length := by
  induction h with
  | nil => rfl
  | cons _ _ _ ih => rw [List.length_cons, List.length_cons, ih]

/-- Between the parts behind the first `JOIN` are the operators of the further members. -/
theorem operatorsFrom_cases (hfirst : first < start) (hjoin : q.tokens[start - 1]? = some link.join)
    (hr : CoversTokens q ⟨start, stop⟩ (link.operand ++ others.flatMap fun l => l.join :: l.operand)) :
    (∃ e, dropOperators link others = .error e ∧ operatorsFrom first start link.operand others = .error e) ∨
      ∃ links ops, dropOperators link others = .ok links ∧ operatorsFrom first start link.operand others = .ok ops ∧
        ∀ s, CoversLinks q stop (⟨s, start - 1⟩ :: ops) links := by
  have hsucc : start - 1 + 1 = start := Nat.sub_add_cancel (by omega)
  induction others generalizing link start with
  | nil =>
    rw [List.flatMap_nil, List.append_nil] at hr
    refine .inr ⟨[link], [], rfl, rfl, fun s => .cons hjoin ?_ .nil⟩
    rw [hsucc]
    exact hr
  | cons next others ih =>
    rw [List.flatMap_cons] at hr
    rw [dropOperators, operatorsFrom]
    cases hoperand : dropOperator link.operand with
    | error e => exact .inl ⟨e, rfl, rfl⟩
    | ok operand =>
      obtain ⟨words, hwords⟩ := JoinChain.eq_of_dropOperator hoperand
      have hne : start + operand.length ≠ first := by omega
      have hnext := hr.right
      simp only [ok_bind, hne, if_false]
      rcases ih (by omega : first < start + link.operand.length + 1) hnext.head hnext.tail rfl with
        ⟨e, hdropped, hfound⟩ | ⟨links, ops, hdropped, hfound, hcovers⟩
      · exact .inl ⟨e, by rw [hdropped]; rfl, by rw [hfound]; rfl⟩
      · refine .inr ⟨⟨link.join, operand⟩ :: links, ⟨start + operand.length, start + link.operand.length⟩ :: ops,
          by rw [hdropped]; rfl, by rw [hfound]; rfl, fun s => .cons hjoin ?_ (hcovers _)⟩
        rw [hwords, List.append_assoc] at hr
        rw [hsucc]
        exact hr.left

theorem checkOperands_eq (h : T.Holds q) (depth : Nat) (hc : CoversLinks q stop ops links) :
    checkOperands T depth stop ops = lift (links.forM (JoinChain.checkLink depth)) := by
  induction hc with
  | nil => rfl
  | @cons op ops link links hjoin hr _ ih =>
    have hstop : operandStop stop ops = op.join + 1 + link.operand.length := hr.stop_eq
    have hhead : T.isKeyword (op.join + 1) .ON = (link.operand.head?.any fun t => t.isKeyword .ON) ∨ link.operand = [] := by
      cases hoperand : link.operand with
      | nil => exact .inr rfl
      | cons u us =>
        rw [hoperand] at hr
        rw [h.isKeyword_eq, hr.head]
        exact .inl rfl
    have hnone : (operandStop stop ops ≤ op.join + 1 ∨ T.isKeyword (op.join + 1) .ON = true)
        ↔ (link.operand = [] ∨ (link.operand.head?.any fun t => t.isKeyword .ON) = true) := by
      have hempty : operandStop stop ops ≤ op.join + 1 ↔ link.operand = [] := by
        rw [← List.length_eq_zero_iff]
        omega
      rw [hempty]
      rcases hhead with heq | hnil
      · rw [heq]
      · simp [hnil]
    show _ = lift (JoinChain.checkLink depth link >>= fun _ => links.forM (JoinChain.checkLink depth))
    rw [checkOperands, lift_bind, ← ih, JoinChain.checkLink]
    simp only [hnone, h.spanTo_eq hjoin hjoin, ok_bind, h.findKeyword_eq hr]
    by_cases hmissing : link.operand = [] ∨ (link.operand.head?.any fun t => t.isKeyword .ON) = true
    · rw [if_pos hmissing, if_pos hmissing]
      rfl
    rw [if_neg hmissing, if_neg hmissing]
    cases hsplit : Token.splitFirst (Token.isKeywordAt depth .ON) link.operand with
    | none => rfl
    | some found =>
      obtain ⟨before, on, condition⟩ := found
      obtain ⟨hoperand, -⟩ := Token.splitFirst_eq_some hsplit
      have hon : q.tokens[op.join + 1 + before.length]? = some on := by
        rw [hoperand] at hr
        exact hr.getElem?
      rw [hoperand, List.length_append, List.length_cons] at hstop
      simp only [Option.map_some, h.spanTo_eq hon hon, ok_bind]
      cases condition with
      | nil =>
        rw [if_pos (by rw [List.length_nil] at hstop; omega)]
        rfl
      | cons u us =>
        rw [if_neg (by rw [List.length_cons] at hstop; omega)]
        rfl

/-- The operators of a block are those of its chain, and no operand is empty. -/
theorem findJoins_cases (h : T.Holds q) (hr : CoversTokens q r block) (depth : Nat) :
    (∃ e, JoinChain.ofBlock depth block = .error e ∧ findJoins T depth r = refuse e) ∨
      ∃ chain ops, JoinChain.ofBlock depth block = .ok chain ∧ findJoins T depth r = .ok ops ∧
        CoversLinks q r.stop ops chain.links ∧ ∀ link ∈ chain.links, link.operand ≠ [] := by
  obtain ⟨start, stop⟩ := r
  have hs : Scans T q depth start stop start [] block := ⟨hr, .inl rfl, fun i _ hle hlt => by
    rw [List.length_nil] at hlt
    omega⟩
  have hcut := JoinChain.eq_of_cut depth block
  have hops := operators_eq h hs
  rw [List.length_nil, Nat.add_zero, List.nil_append] at hops
  rw [findJoins, hr.indices_eq, hops, JoinChain.ofBlock]
  generalize cut depth block = parts at hcut ⊢
  obtain ⟨part, links⟩ := parts
  cases links with
  | nil => exact .inr ⟨_, _, rfl, rfl, .nil, List.forall_mem_nil _⟩
  | cons link others =>
    have hbehind := hr
    rw [hcut, List.flatMap_cons] at hbehind
    have hlink := hbehind.right
    simp only [operatorsFrom]
    cases hhead : dropOperator part with
    | error e => exact .inl ⟨e, rfl, rfl⟩
    | ok head =>
      have hempty : start + head.length = start ↔ head = [] := by
        rw [← List.length_eq_zero_iff]
        omega
      simp only [ok_bind, hempty]
      by_cases hnil : head = []
      · simp only [hnil, if_true]
        exact .inl ⟨_, rfl, rfl⟩
      simp only [hnil, if_false]
      rcases operatorsFrom_cases (by omega : start < start + part.length + 1) hlink.head hlink.tail with
        ⟨e, hdropped, hfound⟩ | ⟨links, ops, hdropped, hfound, hcovers⟩
      · refine .inl ⟨e, ?_, ?_⟩
        · rw [hdropped]
          rfl
        · rw [hfound]
          rfl
      · have hcovers := hcovers (start + head.length)
        have hcheck := checkOperands_eq h depth hcovers
        rw [Nat.add_sub_cancel] at hcheck hcovers
        simp only [hdropped, hfound, ok_bind, pure_eq_ok, lift_ok, hcheck]
        cases hforM : links.forM (JoinChain.checkLink depth) with
        | error e => exact .inl ⟨e, rfl, rfl⟩
        | ok _ =>
          refine .inr ⟨_, _, rfl, rfl, hcovers, fun l hl hnil => ?_⟩
          have hok := JoinChain.forall_of_forM hforM l hl
          rw [JoinChain.checkLink, if_pos (.inl hnil)] at hok
          cases hok

/-! ### Edits -/

/-- Before each further operator is the last token of an operand. -/
theorem closings_eq (h : T.Holds q) (hc : CoversLinks q stop (op :: ops) links) (hne : ∀ link ∈ links, link.operand ≠ []) :
    ops.mapM (closingBefore T)
      = .ok (links.dropLast.map fun link => Edit.insert (Token.stopOr 0 link.operand) [')']) := by
  induction ops generalizing op links with
  | nil =>
    cases hc with
    | cons _ _ rest =>
      cases rest
      rfl
  | cons next ops ih =>
    cases hc with
    | @cons _ _ link links _ hr rest =>
      obtain ⟨hoperand, hne⟩ := List.forall_mem_cons.1 hne
      obtain ⟨front, last, hlast⟩ := (List.eq_nil_or_concat link.operand).resolve_left hoperand
      rw [List.concat_eq_append] at hlast
      have hstart : next.start = op.join + 1 + link.operand.length := hr.stop_eq
      rw [hlast, List.length_append, List.length_singleton, ← Nat.add_assoc] at hstart
      have hword : q.tokens[next.start - 1]? = some last := by
        rw [hlast] at hr
        rw [hstart, Nat.add_sub_cancel]
        exact hr.getElem?
      have hclosing : closingBefore T next = .ok (Edit.insert (Token.stopOr 0 link.operand) [')']) := by
        rw [closingBefore, minus_eq (by omega), ok_bind, h.token_eq hword, hlast, Token.stopOr_concat]
        rfl
      have hlinks : links ≠ [] := by
        rintro rfl
        cases rest
      rw [List.mapM_cons, hclosing, ok_bind, ih rest hne, List.dropLast_cons_of_ne_nil hlinks]
      rfl

theorem nestEdits_eq (h : T.Holds q) (hr : CoversTokens q r (t :: ts)) (hc : CoversLinks q r.stop ops chain.links)
    (hne : ∀ link ∈ chain.links, link.operand ≠ []) (wrapped : Bool) (index : Nat) :
    nestEdits T wrapped index ⟨t.start, Token.stopOr 0 (t :: ts)⟩ ops
      = .ok (JoinChain.blockEdits wrapped index (t :: ts) chain) := by
  have hlength := hc.length_eq
  rw [JoinChain.blockEdits]
  cases ops with
  | nil =>
    rw [if_pos (List.length_eq_zero_iff.1 hlength.symm)]
    rfl
  | cons op ops =>
    obtain ⟨as, bs, hq, -⟩ := hr.exists_eq (List.cons_ne_nil _ _)
    have hsome : chain.links ≠ [] := by
      intro hnil
      rw [hnil] at hlength
      cases hlength
    rw [List.length_cons] at hlength
    have hmore : chain.links.length > 1 ↔ ops ≠ [] := by
      rw [← hlength, ← List.length_pos_iff]
      omega
    have hcount : chain.links.length - 1 = ops.length := by omega
    rw [nestEdits, h.cutOut_eq hq rfl, ok_bind, closings_eq h hc hne, ok_bind, if_neg hsome, hcount]
    simp only [hmore, ne_eq, ite_not]
    rfl

theorem blocksEdits_eq {place : Nat} {rs : List TokenRange} {blocks : List Token.Piece} (h : T.Holds q)
    (hblocks : List.Forall₂ (CoversPiece q stop place) rs blocks) (hstop : stop ≤ q.tokens.length)
    (hplace : place = Token.startOr q.stop (q.tokens.drop stop)) (wrapped : Bool) (index : Nat) :
    blocksEdits T depth wrapped index rs = lift (JoinChain.blocksEdits depth wrapped index blocks) := by
  induction hblocks generalizing index with
  | nil => rfl
  | @cons r block rs blocks hblock _ ih =>
    obtain ⟨tokens, blockStop⟩ := block
    have hr : CoversTokens q r tokens := hblock.covers
    rw [blocksEdits, JoinChain.blocksEdits]
    cases tokens with
    | nil =>
      -- Behind an empty block is a comma, or what ends the clause.
      have hempty : r.stop = r.start := hr.stop_eq
      have hle := hblock.stop_le hstop
      obtain ⟨u, hu, hstart⟩ := h.exists_token_le hle
      have hend : blockStop = u.start := by
        rcases hblock.ends with ⟨heq, hend⟩ | ⟨comma, hcomma, hend⟩
        · rw [hstart, heq, ← hplace]
          exact hend
        · obtain rfl : comma = u := Except.ok.inj ((h.token_eq hcomma).symm.trans hu)
          exact hend
      rw [TokenTable.Holds.rangeSpan_of_nil (Nat.le_of_eq hempty), ok_bind]
      simp only [h.eof_eq, ok_bind, ← hempty, Nat.min_eq_left hle, hu, if_true, hend]
      rfl
    | cons t ts =>
      rw [h.rangeSpan_eq hr, ok_bind, if_neg (List.cons_ne_nil _ _)]
      rcases findJoins_cases h hr depth with ⟨e, hchain, hops⟩ | ⟨chain, ops, hchain, hops, hc, hne⟩
      · simp only [hchain, hops]
        rfl
      · simp only [hchain, hops, ok_bind, nestEdits_eq h hr hc hne, ih]
        cases JoinChain.blocksEdits depth wrapped (index + 1) blocks <;> rfl

theorem clauseEdits_eq (h : T.Holds q) (hr : CoversTokens q r ts) (hstop : r.stop ≤ q.tokens.length) (depth : Nat) :
    clauseEdits T depth r
      = lift (JoinChain.clauseEdits depth (Token.startOr q.stop (q.tokens.drop r.stop)) ts) := by
  obtain ⟨rs, hrs, hblocks⟩ := h.splitCommas_pieces hr depth (Token.startOr q.stop (q.tokens.drop r.stop))
  rw [clauseEdits, hrs, ok_bind, JoinChain.clauseEdits, hblocks.length_eq]
  exact blocksEdits_eq h hblocks hstop rfl _ 0

theorem nestClause_eq (text : SqlText) : nestClause text = lift (JoinChain.nestClause text) := by
  have hedits := edits_eq (F := fun T => do clauseEdits T 0 ⟨0, ← T.eof⟩)
    (f := fun q => JoinChain.clauseEdits 0 q.stop q.tokens) (fun T q h => ?_) (fun q tail es hread hes e he => ?_) text
  · simp only [bind_assoc] at hedits
    exact hedits
  · have hall : CoversTokens q ⟨0, q.tokens.length⟩ q.tokens := .of_drop (Nat.zero_le _)
    rw [h.eof_eq, ok_bind, clauseEdits_eq h hall (Nat.le_refl _), List.drop_length]
    rfl
  · have hinto := JoinChain.insertsInto_of_clauseEdits hread hes e he
    rw [hread.spell]
    exact hinto.fits

/-- The edits of all scopes are those of each of them. -/
theorem mapM_tablesEdits {ss : List TableScope} {scopes : List Scope} (h : T.Holds q)
    (hs : List.Forall₂ (CoversScope q) ss scopes) :
    (do return (← ss.mapM (tablesEdits T)).flatten) = lift (JoinChain.scopesEdits scopes) := by
  induction hs with
  | nil => rfl
  | @cons s scope ss scopes hscope _ ih =>
    obtain ⟨x, htables, hmodel⟩ : ∃ x, tablesEdits T s = lift x ∧ JoinChain.scopesEdits (scope :: scopes)
        = x >>= fun es => (JoinChain.scopesEdits scopes).map (es ++ ·) := by
      rw [tablesEdits, JoinChain.scopesEdits]
      rcases hscope.clause?_cases .tables with ⟨hnone, hnone'⟩ | ⟨r, clause, hsome, hsome', hclause⟩
      · rw [hnone, hnone']
        exact ⟨.ok [], rfl, rfl⟩
      · rw [hsome, hsome']
        refine ⟨_, (clauseEdits_eq h hclause.body hclause.stop_le _).trans ?_, rfl⟩
        rw [hscope.depth, hclause.stop]
    rw [List.mapM_cons, htables, hmodel, lift_bind]
    simp only [lift_map, ← ih]
    cases x with
    | error _ => rfl
    | ok es => cases ss.mapM (tablesEdits T) <;> rfl

theorem nestAll_eq (text : SqlText) : nestAll text = lift (JoinChain.nestAll text) := by
  rw [nestAll, JoinChain.nestAll]
  rcases TokenTable.ofText_cases text with ⟨q, T, hq, hT, rfl, h⟩ | ⟨e, hq, hT⟩
  · obtain ⟨cells, hread⟩ := h.read
    obtain ⟨last, htokens, hkind, -⟩ := h.tokens
    obtain ⟨ss, hss, hscopes⟩ := h.scopes_eq
    have hunion : (T.tokens.any fun t => t.isKeyword .UNION) = q.tokens.any fun t => t.isKeyword .UNION := by
      have hlast : last.isKeyword .UNION = false := by rw [Token.isKeyword, hkind]; rfl
      rw [htokens, List.any_append, List.any_cons, hlast, List.any_nil, Bool.or_false, Bool.or_false]
    rw [hT, hq, ok_bind, ok_bind, hunion, hss, ok_bind]
    split
    · rfl
    · have hedits : (do applyAll (← ss.mapM (tablesEdits T)).flatten q.text)
          = lift (JoinChain.scopesEdits q.scopes) >>= fun es => applyAll es q.text := by
        rw [← mapM_tablesEdits h hscopes, bind_assoc]
        rfl
      rw [hedits, lift_bind]
      cases hes : JoinChain.scopesEdits q.scopes with
      | error e => rfl
      | ok es =>
        refine applyAll_eq fun e he => ?_
        rw [← hread.spell]
        exact JoinChain.fits hread hes he
  · rw [hT, hq]
    rfl

end Guarded

end JetAdapter
