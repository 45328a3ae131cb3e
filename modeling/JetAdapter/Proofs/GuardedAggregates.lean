import JetAdapter.Guarded.Rule
import JetAdapter.Proofs.Groups
import JetAdapter.Proofs.GuardedCalls
import JetAdapter.Proofs.SelectionReadings
import JetAdapter.Proofs.TableScopes

/-!
# Guarded aggregates over distinct values

Taking the aggregates over distinct values makes no step that must not be made.  A call that starts what a `SELECT`
selects ends before the clauses of the `SELECT` open, since what is in its parentheses is nested deeper, so there is an
alias behind its parenthesis, which may be empty, and never less.  The words that open an ordering are two, so there are
two tokens before it.
-/

namespace JetAdapter

open Guarded (ok_bind lift minus_eq)

variable {T : TokenTable} {q : Query} {c : Call} {t : Token} {ts operand : List Token} {r : TokenRange} {i : Nat}
  {tail : List Cell} {s : TableScope} {scope : Scope}

/-! ### Select lists -/

theorem Token.EndsClause.not_left (h : t.EndsClause) : t.isSymbol .leftParen = false := by
  rcases h with hright | hsemi | ⟨k, -, hk⟩
  · exact isSymbol_eq_false_of_isSymbol hright (by decide)
  · exact isSymbol_eq_false_of_isSymbol hsemi (by decide)
  · exact isSymbol_eq_false_of_isKeyword hk

/-- A select list that is not empty stands behind the modifiers, and what stands behind it ends what is at the depth of
the scope. -/
theorem Query.IsRead.list_level (h : q.IsRead tail) (hs : scope ∈ q.scopes) (hne : scope.list ≠ []) :
    ∃ as bs, q.tokens = as ++ scope.select :: (scope.modifiers ++ (scope.list ++ bs)) ∧
      scope.modifiers.length = Scope.modifierCount scope.body ∧ Token.Closes scope.depth bs ∧ AtEnd bs ∧
      ∀ t ∈ scope.list, scope.depth ≤ t.depth := by
  obtain ⟨as, after, hq, heq, -⟩ := Scope.mem_among hs
  have hends : ∀ t ∈ (after.dropWhile (Scope.reaches scope.depth)).head?, t.EndsScope :=
    Scope.endsScope_of_dropWhile (hq ▸ h.nested)
  have hcloses : Token.Closes scope.depth (after.dropWhile (Scope.reaches scope.depth)) := closes_of_dropWhile
  have hafter := List.takeWhile_append_dropWhile (p := Scope.reaches scope.depth) (l := after)
  have hdepths := depth_le_of_mem_body hs
  have hbody : scope.body = after.takeWhile (Scope.reaches scope.depth) := by
    rw [heq]
    rfl
  have hmodifiers : scope.modifiers = scope.body.take (Scope.modifierCount scope.body) := by
    rw [heq]
    rfl
  have hlist : scope.list = (Clause.cut scope.depth (Token.startOr q.stop
      (after.dropWhile (Scope.reaches scope.depth))) scope.body).1.drop (Scope.modifierCount scope.body) := by
    rw [heq]
    rfl
  obtain ⟨us, hcut, hus⟩ := Clause.cut_fst scope.depth (Token.startOr q.stop
    (after.dropWhile (Scope.reaches scope.depth))) scope.body
  generalize Token.startOr q.stop (after.dropWhile (Scope.reaches scope.depth)) = stop at hlist hcut
  generalize (Clause.cut scope.depth stop scope.body).1 = front at hlist hcut
  have hle : Scope.modifierCount scope.body ≤ front.length := by
    refine Nat.le_of_not_lt fun hlt => hne ?_
    rw [hlist, List.drop_of_length_le (Nat.le_of_lt hlt)]
  have htake : scope.modifiers = front.take (Scope.modifierCount scope.body) := by
    have hfront := @List.take_append_of_le_length _ _ us _ hle
    rw [← hcut] at hfront
    rw [hmodifiers, hfront]
  have hfront : front = scope.modifiers ++ scope.list := by rw [hlist, htake, List.take_append_drop]
  rw [← hbody] at hafter
  rw [hfront] at hcut
  generalize after.dropWhile (Scope.reaches scope.depth) = rest at hafter hcloses hends
  refine ⟨as, us ++ rest, ?_, ?_, closes_of_endsAt hus hcloses, ?_, fun t ht => hdepths t ?_⟩
  · rw [hq, ← hafter, hcut]
    simp only [List.append_assoc]
  · rw [htake, List.length_take_of_le hle]
  · intro t ht
    rcases hus with rfl | ⟨b, vs, rfl, -, hopen⟩
    · exact (hends t ht).endsClause
    · obtain rfl : b = t := by simpa using ht
      exact Clause.endsClause_of_opened? hopen
  · rw [hcut]
    simp [ht]

/-- A call that a select list starts with is inside the list, and no other token of the list starts there. -/
theorem Query.IsRead.atFront_list (h : q.IsRead tail) (hs : scope ∈ q.scopes) (hr : CoversTokens q r scope.list)
    (hc : q.callAt? i = some c) (hmem : c.name ∈ scope.list) :
    r.start ≠ i ∧ Call.atFront (· = c.name) scope.list = none ∨
      r.start = i ∧ ∃ named, Call.atFront (· = c.name) scope.list = some (c, named) := by
  have hname := (Query.callAt_of_eq_some hc).name
  have hne : scope.list ≠ [] := List.ne_nil_of_mem hmem
  obtain ⟨as, bs, hq, -, hcloses, hend, hdepths⟩ := h.list_level hs hne
  by_cases hstart : r.start = i
  · refine .inr ⟨hstart, ?_⟩
    -- The call is at the front of the list and what stands behind it.
    have hdrop : q.tokens.drop i = scope.list ++ bs := by
      obtain ⟨as', bs', hq', hlength⟩ := hr.exists_eq hne
      obtain ⟨u, us, hlist⟩ := List.exists_cons_of_ne_nil hne
      have hsplit : q.tokens = (as ++ scope.select :: scope.modifiers) ++ u :: (us ++ bs) := by
        rw [hq, hlist]
        simp
      rw [hlist] at hq' ⊢
      have hrest := (h.append_cons_inj hsplit (show q.tokens = as' ++ u :: (us ++ bs') from hq')).2
      rw [← hstart, ← hlength, hq', List.drop_left, List.cons_append, List.cons_append, hrest]
    have hall : ∃ after, Call.atFront (· = c.name) (scope.list ++ bs) = some (c, after) := by
      rw [Query.callAt?, hdrop] at hc
      split at hc
      · cases hc
      · obtain ⟨⟨d, after⟩, hfront, rfl⟩ := Option.map_eq_some_iff.1 hc
        exact ⟨after, by rw [Call.atFront_eq_filter, hfront, Option.filter_some, if_pos (by simp)]⟩
    obtain ⟨after, hafter⟩ := hall
    cases bs with
    | nil => exact ⟨after, by rwa [List.append_nil] at hafter⟩
    | cons v vs =>
      have hrun := Token.nested_iff_run.1 h.nested
      have hsplit : q.tokens = (as ++ scope.select :: scope.modifiers) ++ (scope.list ++ v :: vs) := by
        rw [hq]
        simp
      rw [hsplit] at hrun
      obtain ⟨d, -, hrun⟩ := hrun.of_append
      obtain ⟨e, hlist, hrest⟩ := hrun.of_append
      have he : e ≤ scope.depth := by
        obtain ⟨hv, hright⟩ := hcloses v rfl
        cases hrest with
        | opening _ hdepth => omega
        | closing paren hdepth =>
          have := hright paren
          omega
        | plain _ _ hdepth => omega
      rw [Call.atFront_append hlist (fun t ht => Nat.le_trans he (hdepths t ht)) (hend v rfl).not_left hne] at hafter
      obtain ⟨⟨d, named⟩, hfront, hfound⟩ := Option.map_eq_some_iff.1 hafter
      obtain ⟨rfl, -⟩ := Prod.mk.inj hfound
      exact ⟨named, hfront⟩
  · refine .inl ⟨hstart, ?_⟩
    cases hfront : Call.atFront (· = c.name) scope.list with
    | none => rfl
    | some found =>
      obtain ⟨d, named⟩ := found
      obtain ⟨hlist, hd, -⟩ := Call.atFront_eq_some hfront
      obtain ⟨start, stop⟩ := r
      rw [hlist, Call.tokens] at hr
      have hhead := hr.head
      rw [of_decide_eq_true hd] at hhead
      exact absurd (h.getElem?_inj hhead hname) hstart

/-! ### Calls -/

namespace Distinct

theorem distinctCall?_eq_some {aggregate : Keyword} {d : Call} {distinct : Token}
    (h : distinctCall? c = some (aggregate, d, distinct, operand)) :
    d = c ∧ aggregate? c.name = some aggregate ∧ c.args = distinct :: operand := by
  unfold distinctCall? at h
  split at h
  · next haggregate hargs =>
    split at h
    · cases h
      exact ⟨rfl, haggregate, hargs⟩
    · cases h
  · cases h

/-- The first call is the first that starts at a token. -/
theorem firstCall?_eq_findSome? (q : Query) :
    firstCall? q = (List.range' 0 q.tokens.length).findSome? fun i => (q.callAt? i).bind distinctCall? := by
  rw [firstCall?, Query.calls_eq]
  generalize List.range' 0 q.tokens.length = is
  induction is with
  | nil => rfl
  | cons i is ih =>
    rw [List.filterMap_cons, List.findSome?_cons]
    cases q.callAt? i with
    | none => exact ih
    | some c =>
      rw [Option.filter_some, Option.bind_some]
      cases haggregate : aggregate? c.name with
      | none =>
        have hnone : distinctCall? c = none := by rw [distinctCall?, haggregate]
        rw [hnone]
        exact ih
      | some aggregate =>
        simp only [Option.isSome_some, if_true, List.findSome?_cons]
        rw [← ih]
        rfl

end Distinct

namespace Guarded

open Distinct (aggregate? distinctCall?)

theorem distinctCallAt_eq (h : T.Holds q) (ht : q.tokens[i]? = some t) :
    distinctCallAt T i = .ok (((q.callAt? i).bind distinctCall?).map
      fun (aggregate, c, _, _) => ⟨i, aggregate, i + 1, i + 2 + c.args.length⟩) := by
  rw [distinctCallAt, h.token_eq ht, ok_bind]
  cases haggregate : aggregate? t with
  | none =>
    cases hc : q.callAt? i with
    | none => rfl
    | some c =>
      obtain rfl : c.name = t := Option.some.inj ((Query.callAt_of_eq_some hc).name.symm.trans ht)
      rw [Option.bind_some, distinctCall?, haggregate]
      rfl
  | some aggregate =>
    have hkeyword : t.isKeyword aggregate = true := Kind.isKeyword_iff.2 (Distinct.kind_of_aggregate? haggregate).1
    simp only
    have hspelling : aggregate.spelling ≠ [] ∧ (Text.lower aggregate.spelling).all Char.isAlpha = true := by
      cases aggregate <;> decide
    rw [h.callAt_keyword ht hkeyword (beq_self_eq_true _) hspelling.1 hspelling.2, ok_bind]
    cases hc : q.callAt? i with
    | none => rfl
    | some c =>
      have hparts := Query.callAt_of_eq_some hc
      obtain rfl : c.name = t := Option.some.inj (hparts.name.symm.trans ht)
      rw [Option.bind_some, distinctCall?, haggregate]
      simp only [Option.map_some]
      cases hargs : c.args with
      | nil =>
        obtain ⟨-, hmatched⟩ := Query.covers_of_callAt? hc
        have hclosing := hparts.closing
        rw [hargs] at hclosing
        have hnot : c.closing.isKeyword .DISTINCT = false := by
          have hkind : c.closing.kind = .symbol .rightParen :=
            Kind.isSymbol_iff.1 (Token.isSymbol_of_isSymbolAt hmatched.right)
          simp [Token.isKeyword, Kind.isKeyword, hkind]
        rw [h.isKeyword_eq, show q.tokens[i + 1 + 1]? = some c.closing from hclosing, Option.any_some, hnot]
        rfl
      | cons distinct operand =>
        have hdistinct := hparts.args
        rw [hargs] at hdistinct
        rw [h.isKeyword_eq, hdistinct.head, Option.any_some]
        by_cases hd : distinct.isKeyword .DISTINCT = true
        · rw [if_pos hd]
          simp [hd, hargs]
        · rw [if_neg hd]
          simp [hd]

/-! ### Parts of a scope -/

theorem isAlias_eq (h : T.Holds q) (hr : CoversTokens q r ts) : isAlias T r.start r.stop = .ok (Distinct.isAlias ts) := by
  obtain ⟨i, stop⟩ := r
  have hstop : stop = i + ts.length := hr.stop_eq
  rw [isAlias, hstop, minus_eq (Nat.le_add_right _ _), ok_bind, Nat.add_sub_cancel_left]
  match ts with
  | [] => rfl
  | [t] =>
    simp only [List.length_singleton, h.token_eq hr.head, ok_bind]
    rfl
  | [t, _] =>
    simp only [List.length_cons, List.length_nil, h.isKeyword_eq, hr.head]
    rfl
  | _ :: _ :: _ :: _ => rfl

theorem isOneExpression_eq (h : T.Holds q) (hr : CoversTokens q r ts) (depth : Nat) :
    isOneExpression T depth r = .ok (Distinct.isOneExpression depth ts) := by
  obtain ⟨i, stop⟩ := r
  obtain ⟨rs, hrs, hpieces⟩ := h.splitCommas_eq hr depth
  rw [isOneExpression]
  cases ts with
  | nil =>
    rw [if_pos (.inl (hr.size_eq_zero_iff.2 rfl))]
    rfl
  | cons first more =>
    have hsize : ¬ (⟨i, stop⟩ : TokenRange).size = 0 := fun hs => List.cons_ne_nil _ _ (hr.size_eq_zero_iff.1 hs)
    have hstar : T.isSymbol i .star = first.isSymbol .star := by
      rw [h.isSymbol_eq, hr.head]
      rfl
    simp only [hsize, hstar, false_or]
    rw [Distinct.isOneExpression, hrs, ← hpieces.length_eq]
    cases first.isSymbol .star with
    | true => rfl
    | false =>
      rw [if_neg Bool.false_ne_true, ok_bind, Bool.not_false, Bool.true_and]
      rfl

/-- The ordering with its two words stands where it does in the query. -/
theorem wholeOrdering?_cases (hs : CoversScope q s scope) :
    wholeOrdering? s = .ok none ∧ scope.clause? .ordering = none ∨
      ∃ r o, wholeOrdering? s = .ok (some r) ∧ scope.clause? .ordering = some o ∧ CoversTokens q r (o.words ++ o.body) ∧
        o.words ≠ [] := by
  rw [wholeOrdering?]
  rcases hs.clause?_cases .ordering with ⟨hnone, hnone'⟩ | ⟨r, o, hsome, hsome', ho⟩
  · rw [hnone]
    exact .inl ⟨rfl, hnone'⟩
  · have hopens : 2 ≤ r.start := ho.opens
    have hwords : o.words.length = 2 := ho.words
    rw [hsome]
    simp only [minus_eq hopens, ok_bind]
    refine .inr ⟨_, o, rfl, hsome', ho.covers, fun hnil => ?_⟩
    rw [hnil] at hwords
    cases hwords

/-- The first word of a clause is a token of the scope. -/
theorem mem_body_of_clause? {kind : ClauseKind} {clause : Clause} (hs : scope ∈ q.scopes)
    (hclause : scope.clause? kind = some clause) : ∀ t ∈ clause.words, t ∈ scope.body := by
  obtain ⟨as, after, -, heq, -⟩ := Scope.mem_among hs
  have hmem : clause ∈ scope.clauses := by simpa using List.mem_of_find?_eq_some hclause
  have hclauses : scope.clauses = (Clause.cut scope.depth (Token.startOr q.stop
      (after.dropWhile (Scope.reaches scope.depth))) scope.body).2 := by
    rw [heq]
    rfl
  rw [hclauses] at hmem
  obtain ⟨us, vs, hbody, -⟩ := Clause.mem_cut hmem
  intro t ht
  rw [hbody]
  simp [ht]

/-- The tokens that move into the table of values are those behind the `FROM`, up to the ordering or the end. -/
theorem rangeText_inner {clause : Clause} {ordering : Option TokenRange} (h : T.Holds q) (hmem : scope ∈ q.scopes)
    (hs : CoversScope q s scope) (hclause : scope.clause? .tables = some clause)
    (hr : CoversClause q (.tables, r) clause)
    (hordering : ordering = none ∧ scope.clause? .ordering = none ∨ ∃ r o, ordering = some r ∧
      scope.clause? .ordering = some o ∧ CoversTokens q r (o.words ++ o.body) ∧ o.words ≠ []) :
    T.rangeText ⟨r.start, (ordering.map TokenRange.start).getD s.stop⟩
      = .ok (Token.spell (Distinct.innerTokens scope clause)) := by
  obtain ⟨cells, hread⟩ := h.read
  -- The `FROM` stands in the scope, right before the tables.
  obtain ⟨f, hf⟩ : ∃ f, clause.words = [f] := List.length_eq_one_iff.1 hr.words
  have hopens : 1 ≤ r.start := hr.opens
  have hfrom : q.tokens[r.start - 1]? = some f := by
    have := hr.covers
    rw [hf] at this
    exact this.head
  obtain ⟨front, behind, hbody⟩ := List.append_of_mem (mem_body_of_clause? hmem hclause f (by simp [hf]))
  have hcovers := hs.body
  rw [hbody] at hcovers
  have hplace := hread.getElem?_inj hfrom hcovers.getElem?
  have hbehind : CoversTokens q ⟨r.start, s.stop⟩ behind := by
    have := hcovers.right.tail
    rwa [← hplace, Nat.sub_add_cancel hopens] at this
  have hpairs : (front ++ f :: behind).Pairwise fun t u => t.start < u.start := by
    rw [← hbody]
    exact hread.pairwise_start.sublist (hs.body.within.sublist.trans (List.drop_sublist _ _))
  have hinner : Distinct.innerTokens scope clause
      = behind.takeWhile fun t => (scope.clause? .ordering).all fun o => t.start < o.start := by
    have hstart : clause.start = f.start := by
      rw [Clause.start, hf]
      rfl
    rw [Distinct.innerTokens, hbody, hstart, Distinct.filter_behind hpairs]
  rw [hinner]
  rcases hordering with ⟨rfl, hnone⟩ | ⟨ro, o, rfl, hsome, ho, hne⟩
  · rw [hnone]
    have hall : (behind.takeWhile fun t => (none : Option Clause).all fun o => t.start < o.start) = behind :=
      Distinct.takeWhile_all behind
    rw [hall]
    exact h.rangeText_eq hbehind
  obtain ⟨w, ws, hw⟩ := List.exists_cons_of_ne_nil hne
  have hword : q.tokens[ro.start]? = some w := by
    rw [hw] at ho
    exact ho.head
  have hstart : o.start = w.start := by
    rw [Clause.start, hw]
    rfl
  rw [hsome]
  simp only [Option.all_some, Option.map_some, Option.getD_some, hstart]
  -- The ordering stands behind the `FROM`, or nothing moves.
  have hmemw := mem_body_of_clause? hmem hsome w (by simp [hw])
  rw [hbody] at hmemw
  rcases Distinct.takeWhile_before_cases hpairs hmemw with ⟨inner, rest, rfl, htake⟩ | ⟨hfront, htake⟩
  · rw [htake, hread.getElem?_inj hword hbehind.getElem?]
    exact h.rangeText_eq hbehind.left
  · have hlt : ro.start < r.start := by
      rw [← List.singleton_append, ← List.append_assoc] at hcovers
      have hlt : ro.start < s.select + 1 + (front ++ [f]).length := ((hcovers.left.mem_iff hread hword).1 hfront).2
      rw [List.length_append, List.length_singleton] at hlt
      omega
    rw [htake, TokenTable.rangeText, TokenTable.Holds.rangeSpan_of_nil (Nat.le_of_lt hlt)]
    rfl

/-- The text from a stretch up to the start of the token behind it. -/
theorem cutOut_before {as bs : List Token} {u : Token} (h : T.Holds q) (hq : q.tokens = as ++ (t :: ts ++ u :: bs)) :
    cutOut T.text ⟨t.start, u.start⟩ = .ok (Token.spell (t :: ts) ++ u.gap) := by
  obtain ⟨cells, hread⟩ := h.read
  obtain ⟨hcells, hstart, -⟩ := hread.split hq
  obtain ⟨-, hstop, -⟩ := hread.split_one (show q.tokens = (as ++ t :: ts) ++ u :: bs by rw [hq, List.append_assoc])
  refine cutOut_append (show T.text = _ ++ ((Token.spell (t :: ts) ++ u.gap)
    ++ Cell.spell (u.cell :: (Token.cells bs ++ cells))) from ?_) hstart ?_
  · rw [h.text, ← hread.spell, hcells, Cell.spell_append, Cell.spell_append (Token.stretch (t :: ts)),
      Token.spell_stretch]
    simp
  · show u.start = _
    rw [hstop]
    simp [Token.spell, Token.spell_cells]

/-- What stands behind a call in its item. -/
theorem covers_behind {named : List Token} {stop : Nat} (h : CoversTokens q ⟨i, stop⟩ (c.tokens ++ named)) :
    CoversTokens q ⟨i + 2 + c.args.length + 1, stop⟩ named := by
  have hlength : i + 2 + c.args.length + 1 = i + c.tokens.length := by
    simp [Call.tokens]
    omega
  rw [hlength]
  exact h.right

/-- What stands behind the first token in the parentheses of a call. -/
theorem covers_operand {distinct : Token} (hc : q.CallAt i c) (hargs : c.args = distinct :: operand) :
    CoversTokens q ⟨i + 1 + 2, i + 2 + c.args.length⟩ operand := by
  have hcovers := hc.args
  rw [hargs] at hcovers ⊢
  exact hcovers.tail

/-- The new text of a scope is made of the texts of its parts. -/
theorem derivedText_eq {clause : Clause} {named : List Token} {ri : TokenRange} (h : T.Holds q)
    (hmem : scope ∈ q.scopes) (hs : CoversScope q s scope) (hclause : scope.clause? .tables = some clause)
    (hr : CoversClause q (.tables, r) clause) (hc : q.CallAt i c) {aggregate : Keyword} {distinct : Token}
    (hargs : c.args = distinct :: operand) (hitem : CoversTokens q ri (c.tokens ++ named)) (hstart : ri.start = i)
    (hlist : scope.list = c.tokens ++ named) :
    derivedText T s ⟨i, aggregate, i + 1, i + 2 + c.args.length⟩ r ri
      = .ok (Distinct.derivedText scope clause (c.tokens ++ named) named operand) := by
  obtain ⟨cells, hread⟩ := h.read
  obtain ⟨start, stop⟩ := ri
  obtain rfl : start = i := hstart
  -- The parts of the scope up to the end of the alias.
  have hne : scope.list ≠ [] := by
    rw [hlist]
    exact List.cons_ne_nil _ _
  obtain ⟨as, bs, hq, -⟩ := hread.list_level hmem hne
  have hfront : cutOut T.text ⟨scope.select.start, c.name.start⟩
      = .ok (Token.spell (scope.select :: scope.modifiers) ++ c.name.gap) := by
    refine cutOut_before h (?_ : q.tokens = as ++ (_ ++ c.name :: (c.opening :: (c.args ++ [c.closing]) ++ named ++ bs)))
    rw [hq, hlist, Call.tokens]
    simp
  have hfirst : T.token s.list.start = .ok c.name := by
    have hcovers := hs.list
    rw [hlist, Call.tokens] at hcovers
    exact h.token_eq hcovers.head
  have hnamed := covers_behind hitem
  have hoperand := covers_operand hc hargs
  have hempty : start + 2 + c.args.length + 1 = stop ↔ named = [] := by
    rw [← hnamed.size_eq_zero_iff, hnamed.size_eq]
    have : stop = start + 2 + c.args.length + 1 + named.length := hnamed.stop_eq
    omega
  have hhead : (((c.tokens ++ named).head?.map fun t => t.gap ++ t.text).getD []) = c.name.gap ++ c.name.text := rfl
  rw [derivedText, Distinct.derivedText]
  rcases wholeOrdering?_cases hs with ⟨hwhole, hnone⟩ | ⟨ro, o, hwhole, hsome, ho, hne⟩
  · have hbody := rangeText_inner h hmem hs hclause hr (.inl ⟨rfl, hnone⟩)
    have hnil : T.rangeText ⟨0, 0⟩ = .ok [] := h.rangeText_eq (.nil q 0)
    rw [Distinct.innerTokens, hnone] at hbody
    rw [hwhole, ok_bind]
    simp only [h.token_eq hs.select, hfirst, hfront, h.spelling_eq hc.name, h.rangeText_eq hnamed,
      h.rangeText_eq hoperand, hbody, ok_bind, hempty, hhead, hnone, Option.getD_none, hnil, Option.isNone_none, if_true,
      List.append_assoc]
    rfl
  · have hbody := rangeText_inner h hmem hs hclause hr (.inr ⟨ro, o, rfl, hsome, ho, hne⟩)
    rw [Distinct.innerTokens, hsome] at hbody
    rw [hwhole, ok_bind]
    simp only [h.token_eq hs.select, hfirst, hfront, h.spelling_eq hc.name, h.rangeText_eq hnamed,
      h.rangeText_eq hoperand, hbody, ok_bind, hempty, hhead, hsome, Option.getD_some, h.rangeText_eq ho,
      Option.isNone_some, Bool.false_eq_true, if_false, List.append_assoc]
    rfl

/-- A list with a single item is that item. -/
theorem list_eq_of_items {item : List Token} (h : scope.items = [item]) : scope.list = item := by
  rcases Token.splitCommas_eq_cons h with ⟨hlist, -⟩ | ⟨_, us, -, -, hnil⟩
  · exact hlist
  · exact absurd hnil (by simp [Token.splitCommas, Token.pieces_ne_nil])

/-- Whether a scope has a clause of a kind is the same in both. -/
theorem isSome_clause? (hs : CoversScope q s scope) (kind : ClauseKind) :
    (s.clause? kind).isSome = (scope.clause? kind).isSome := by
  rcases hs.clause?_cases kind with ⟨hnone, hnone'⟩ | ⟨r, clause, hsome, hsome', -⟩
  · rw [hnone, hnone']
    rfl
  · rw [hsome, hsome']
    rfl

theorem scopeEdit_eq (h : T.Holds q) (hc : q.callAt? i = some c) {aggregate : Keyword} {distinct : Token}
    (hargs : c.args = distinct :: operand) :
    scopeEdit T ⟨i, aggregate, i + 1, i + 2 + c.args.length⟩ = lift ((Distinct.scopeEdit q c operand).mapError
      fun fault => .unsupportedConstruct (.distinct aggregate fault)) := by
  obtain ⟨cells, hread⟩ := h.read
  have hparts := Query.callAt_of_eq_some hc
  rw [scopeEdit, Distinct.scopeEdit]
  rcases h.scopeOfListed?_cases hparts.name with ⟨hnone, hnone'⟩ | ⟨s, scope, hsome, hsome', hs⟩
  · rw [hnone, hnone']
    rfl
  have hmem : scope ∈ q.scopes := by simpa using List.mem_of_find?_eq_some hsome'
  have hlisted : c.name ∈ scope.list := by simpa using List.find?_some hsome'
  obtain ⟨rs, hrs, hitems⟩ := h.splitCommas_eq hs.list s.depth
  have hsplit : Token.splitCommas s.depth scope.list = scope.items := by rw [hs.depth, Scope.items]
  rw [hsplit] at hitems
  rw [hsome, hsome', ok_bind]
  simp only [hrs, ok_bind]
  generalize hshape : scope.items = items at hitems
  match items, hitems with
  | [], .nil => rfl
  | _ :: _ :: _, .cons _ (.cons _ _) => rfl
  | [item], .cons (a := ri) hitem .nil =>
    obtain rfl := list_eq_of_items hshape
    simp only
    rcases hread.atFront_list hmem hitem hc hlisted with ⟨hstart, hfront⟩ | ⟨hstart, named, hfront⟩
    · rw [if_pos hstart, hfront]
      rfl
    · obtain ⟨hlist, -⟩ := Call.atFront_eq_some hfront
      rw [if_neg (not_not_intro hstart), hfront]
      simp only [isSome_clause? hs]
      by_cases hgrouped : (scope.clause? .groups).isSome ∨ (scope.clause? .groupFilter).isSome
      · rw [if_pos hgrouped, if_pos hgrouped]
        rfl
      rw [if_neg hgrouped, if_neg hgrouped]
      rcases hs.clause?_cases .tables with ⟨hnone, hnone'⟩ | ⟨r, clause, htables, htables', hr⟩
      · rw [hnone, hnone']
        rfl
      subst hstart
      have hparted := hlist ▸ hitem
      have hspan := h.rangeSpan_eq (.cons hs.select hs.body)
      rw [htables, htables']
      simp only [isAlias_eq h (covers_behind hparted), h.token_eq hparts.opening,
        isOneExpression_eq h (covers_operand hparts hargs), h.spanTo_eq hs.select hs.select, hspan, ok_bind,
        derivedText_eq h hmem hs htables' hr hparts hargs hparted rfl hlist, ← hlist]
      cases Distinct.isAlias named with
      | false => rfl
      | true =>
        cases Distinct.isOneExpression (c.opening.depth + 1) operand with
        | false => rfl
        | true =>
          have hstop : Token.stopOr 0 (scope.select :: scope.body) = Token.stopOr scope.select.stop scope.body := by
            rw [Token.stopOr, Token.stopOr, List.getLast?_cons]
            cases scope.body.getLast? <;> rfl
          rw [hstop]
          rfl

theorem distinctStep_eq (h : T.Holds q) : distinctStep T = lift (Distinct.step q) := by
  have hcalls : (List.range' 0 q.tokens.length).findSomeM? (distinctCallAt T)
      = .ok ((List.range' 0 q.tokens.length).findSome? fun i => ((q.callAt? i).bind distinctCall?).map
        fun (aggregate, c, _, _) => ⟨i, aggregate, i + 1, i + 2 + c.args.length⟩) := by
    refine findSomeM?_eq fun i hi => ?_
    obtain ⟨t, ht⟩ := q.exists_token hi
    exact distinctCallAt_eq h ht
  rw [distinctStep, h.indices_eq, ok_bind, hcalls, ok_bind, Distinct.step, Distinct.firstCall?_eq_findSome?]
  rcases findSome?_map_cases (fun i (found : Keyword × Call × Token × List Token) =>
      (⟨i, found.1, i + 1, i + 2 + found.2.1.args.length⟩ : DistinctCall)) (List.range' 0 q.tokens.length)
    with ⟨hnone, hnone'⟩ | ⟨i, ⟨aggregate, d, distinct, operand⟩, hfound, hsome, hsome'⟩
  · rw [hnone, hnone']
    rfl
  rw [hsome, hsome']
  obtain ⟨c, hc, hdistinct⟩ := Option.bind_eq_some_iff.1 hfound
  obtain ⟨rfl, -, hargs⟩ := Distinct.distinctCall?_eq_some hdistinct
  have hparts := Query.callAt_of_eq_some hc
  simp only
  by_cases hextreme : aggregate = .MIN ∨ aggregate = .MAX
  · -- Behind the `DISTINCT` is the operand or the closing parenthesis.
    have hinside := hparts.args
    rw [hargs] at hinside
    have hnext : ∃ u, q.tokens[i + 1 + 2]? = some u ∧ u.start = Token.startOr d.closing.start operand := by
      cases operand with
      | nil =>
        have hclosing := hparts.closing
        rw [hargs] at hclosing
        exact ⟨_, hclosing, rfl⟩
      | cons u us => exact ⟨u, hinside.tail.head, rfl⟩
    obtain ⟨u, hu, hstart⟩ := hnext
    have hhead : q.tokens[i + 1 + 1]? = some distinct := hinside.head
    rw [if_pos hextreme, if_pos hextreme]
    simp only [h.token_eq hhead, h.token_eq hu, ok_bind, hstart]
    rfl
  · rw [if_neg hextreme, if_neg hextreme, scopeEdit_eq h hc hargs]
    cases Distinct.scopeEdit q d operand <;> rfl

theorem convertDistincts_eq (text : SqlText) : convertDistincts text = lift (Distinct.convert text) :=
  exhaust_eq (fun _ _ h => distinctStep_eq h) (fun _ _ _ hread he => Distinct.fits hread he) text

end Guarded

end JetAdapter
