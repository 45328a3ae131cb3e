import JetAdapter.Proofs.Outlines
import JetAdapter.Proofs.Tables

/-!
# Scopes of tables

The scopes of a table are those of the query that it holds, one by one (`TokenTable.Holds.scopes_eq`): the range of
each clause covers the clause, and that of the select list covers the list.  Where a clause opens, where a scope ends
and which words modify a `SELECT` is asked of single tokens, the token behind the last one included; none of these
words stands where a scope has ended.
-/

namespace JetAdapter

open Guarded (ok_bind)

variable {T : TokenTable} {q : Query} {r : TokenRange} {as ts us : List Token} {t u : Token} {i place depth : Nat}
  {tail : List Cell}

/-! ### Clauses -/

theorem Clause.HasWords.length_eq {kind : ClauseKind} {ws : List Token} (h : HasWords depth kind ws) :
    ws.length = kind.wordCount := by
  cases h <;> rfl

/-- Whether a range of a table is a clause of a query: behind the words that open it, up to where the clause ends. -/
structure CoversClause (q : Query) (c : ClauseKind × TokenRange) (clause : Clause) : Prop where
  kind : c.1 = clause.kind
  words : clause.words.length = c.1.wordCount
  opens : c.1.wordCount ≤ c.2.start
  covers : CoversTokens q ⟨c.2.start - c.1.wordCount, c.2.stop⟩ (clause.words ++ clause.body)
  stop : clause.stop = Token.startOr q.stop (q.tokens.drop c.2.stop)

theorem CoversClause.body {c : ClauseKind × TokenRange} {clause : Clause} (h : CoversClause q c clause) :
    CoversTokens q c.2 clause.body := by
  have hbody := h.covers.right
  rw [h.words, Nat.sub_add_cancel h.opens] at hbody
  exact hbody

/-- Behind the front of a cut is the first clause, or the end. -/
theorem Clause.startOr_cut (depth place : Nat) (ts : List Token) :
    ∃ bs, ts = (cut depth place ts).1 ++ bs ∧ Token.startOr place bs
      = (match (cut depth place ts).2 with | [] => place | next :: _ => next.start) := by
  induction ts with
  | nil => exact ⟨[], rfl, rfl⟩
  | cons t ts ih =>
    obtain ⟨bs, hts, hbs⟩ := ih
    rw [cut]
    simp only
    split
    · exact ⟨bs, by rw [List.cons_append, ← hts], hbs⟩
    · exact ⟨t :: ts, rfl, rfl⟩

theorem Clause.wordCount_of_opened? {kind : ClauseKind} {more : Nat} (h : opened? t ts = some (kind, more)) :
    more + 1 = kind.wordCount := by
  unfold opened? at h
  simp only at h
  split at h <;> first | (cases h; rfl) | (split at h <;> cases h; rfl) | cases h

/-! ### Going over a scope -/

/-- What follows a token of a scope belongs to the scope if it is a `BY`. -/
theorem Token.Nested.reaches_by {d : Nat} {as : List Token} (hn : Nested d (as ++ t :: u :: us))
    (ht : t.isSymbol .leftParen = false) (hu : u.isKeyword .BY = true) : Scope.reaches t.depth u = true := by
  have hkind : u.kind = .keyword .BY := Kind.isKeyword_iff.1 hu
  have hnext := hn.next
  simp only [ht, isSymbol_eq_false_of_isKeyword hu, Bool.false_eq_true, if_false] at hnext
  simp [Scope.reaches, hnext, isKeyword, isSymbol, Kind.isKeyword, Kind.isSymbol, hkind]

/-- In a scope of a depth the `BY` behind a token of that depth is not missed. -/
theorem Token.Nested.head?_by {d : Nat} {as : List Token} (hn : Nested d (as ++ t :: ts)) (ht : t.depth = depth)
    (hleft : t.isSymbol .leftParen = false) :
    ((ts.takeWhile (Scope.reaches depth)).head?.any fun u => u.isKeyword .BY)
      = ts.head?.any fun u => u.isKeyword .BY := by
  cases ts with
  | nil => rfl
  | cons u us =>
    cases hu : u.isKeyword .BY with
    | true =>
      have hreaches := hn.reaches_by hleft hu
      rw [ht] at hreaches
      rw [List.takeWhile_cons_of_pos hreaches]
      simp [hu]
    | false =>
      cases hreaches : Scope.reaches depth u with
      | true => simp [List.takeWhile_cons_of_pos hreaches, hu]
      | false => simp [hreaches, hu]

/-- A token opens a clause in the table just if it does so in front of what follows it in a scope of its depth. -/
theorem TokenTable.Holds.opened?_eq (h : T.Holds q) (hq : q.tokens = us ++ t :: ts) (ht : t.depth = depth) :
    T.opened? us.length t = (Clause.opened? t (ts.takeWhile (Scope.reaches depth))).map Prod.fst := by
  obtain ⟨cells, hread⟩ := h.read
  have hn := hread.nested
  rw [hq] at hn
  have hnext : T.isKeyword (us.length + 1) .BY = ts.head?.any fun u => u.isKeyword .BY := by
    rw [h.isKeyword_eq, hq, List.getElem?_append_right (Nat.le_add_right _ 1), Nat.add_sub_cancel_left,
      List.getElem?_cons_succ, List.head?_eq_getElem?]
  unfold opened? Clause.opened?
  cases hword : t.kind.keyword? with
  | none => rfl
  | some word =>
    rw [hnext, ← hn.head?_by ht (JoinChain.not_paren_of_keyword? hword).1]
    generalize ((ts.takeWhile (Scope.reaches depth)).head?.any fun u => u.isKeyword .BY) = byFollows
    cases word <;> cases byFollows <;> rfl

/-- The clause of a token and what is behind it, up to the next clause or the end of the scope. -/
theorem coversClause_of_words {kind : ClauseKind} {front next behind : List Token} {more stop place : Nat}
    (hq : q.tokens = us ++ (t :: front ++ (next ++ behind))) (hwords : (t :: front.take more).length = kind.wordCount)
    (hstop : stop = us.length + (t :: front).length) (hplace : place = Token.startOr (Token.startOr q.stop behind) next) :
    CoversClause q (kind, ⟨us.length + kind.wordCount, stop⟩)
      ⟨kind, t :: front.take more, front.drop more, place⟩ := by
  refine ⟨rfl, hwords, Nat.le_add_left _ _, ?_, ?_⟩
  · simp only [Nat.add_sub_cancel, hstop, List.cons_append, List.take_append_drop]
    exact .of_eq hq
  · have hdrop : q.tokens.drop (us.length + (t :: front).length) = next ++ behind := by
      rw [hq, ← List.drop_drop, List.drop_left, List.drop_left]
    simp only [hplace, hstop, hdrop]
    cases next <;> rfl

/-- Going over the tokens from a number on finds where a scope ends and what its clauses cover. -/
theorem TokenTable.Holds.scan_eq (h : T.Holds q) (depth : Nat) {us bs : List Token} (hq : q.tokens = us ++ ts)
    (hts : ts.takeWhile (Scope.reaches depth) = as) (hbs : ts.dropWhile (Scope.reaches depth) = bs) :
    ∃ marks, T.scan depth q.tokens.length (List.range' us.length ts.length) = .ok (us.length + as.length, marks) ∧
      let cut := Clause.cut depth (Token.startOr q.stop bs) as
      firstMark (us.length + as.length) marks = us.length + cut.1.length ∧
        List.Forall₂ (CoversClause q) (clauseRanges (us.length + as.length) marks) cut.2 := by
  induction ts generalizing us as with
  | nil =>
    subst hts hbs
    refine ⟨[], ?_, rfl, .nil⟩
    rw [hq, List.append_nil]
    rfl
  | cons t ts ih =>
    have ht : q.tokens[us.length]? = some t := by
      rw [hq, List.getElem?_append_right (Nat.le_refl _), Nat.sub_self]
      rfl
    rw [List.length_cons, List.range'_succ, scan, h.token_eq ht, ok_bind]
    cases hreaches : Scope.reaches depth t with
    | false =>
      rw [List.takeWhile_cons_of_neg (by simp [hreaches])] at hts
      rw [List.dropWhile_cons_of_neg (by simp [hreaches])] at hbs
      subst hts hbs
      exact ⟨[], rfl, rfl, .nil⟩
    | true =>
      rw [List.takeWhile_cons_of_pos hreaches] at hts
      rw [List.dropWhile_cons_of_pos hreaches] at hbs
      obtain ⟨marks, hscan, hfirst, hclauses⟩ := @ih _ (us ++ [t]) (by rw [hq, List.append_assoc]; rfl) rfl hbs
      subst hts
      rw [List.length_append, List.length_singleton] at hscan hfirst hclauses
      have hstop : us.length + (t :: ts.takeWhile (Scope.reaches depth)).length
          = us.length + 1 + (ts.takeWhile (Scope.reaches depth)).length := by
        rw [List.length_cons]
        omega
      have hbody := List.takeWhile_append_dropWhile (p := Scope.reaches depth) (l := ts)
      rw [hbs] at hbody
      have hopens : (if t.depth = depth then T.opened? us.length t else none)
          = (if t.depth = depth then Clause.opened? t (ts.takeWhile (Scope.reaches depth)) else none).map
            Prod.fst := by
        split
        · next hd => exact h.opened?_eq hq hd
        · rfl
      generalize ts.takeWhile (Scope.reaches depth) = as at *
      rw [hscan, ok_bind, hopens, hstop, Clause.cut]
      simp only [Bool.not_true, Bool.false_eq_true, if_false]
      cases hopened : (if t.depth = depth then Clause.opened? t as else none) with
      | none =>
        refine ⟨marks, rfl, ?_, hclauses⟩
        simp only [List.length_cons]
        omega
      | some opened =>
        obtain ⟨kind, more⟩ := opened
        obtain ⟨hd, hopened⟩ : t.depth = depth ∧ Clause.opened? t as = some (kind, more) := by
          split at hopened
          · next hd => exact ⟨hd, hopened⟩
          · cases hopened
        have hwords := (@Clause.hasWords depth (Token.startOr q.stop bs) as t _ _ hd hopened).length_eq
        have hmore := Clause.wordCount_of_opened? hopened
        obtain ⟨cs, hcs, hplace⟩ := Clause.startOr_cut depth (Token.startOr q.stop bs) as
        generalize Clause.cut depth (Token.startOr q.stop bs) as = cut at *
        have htokens : q.tokens = us ++ (t :: cut.1 ++ (cs ++ bs)) := by
          rw [hq, ← hbody, hcs]
          simp
        have hend : max (firstMark (us.length + 1 + as.length) marks) (us.length + kind.wordCount)
            = us.length + (t :: cut.1).length := by
          rw [List.length_cons, List.length_take] at hwords
          rw [hfirst, List.length_cons]
          omega
        exact ⟨(kind, us.length) :: marks, rfl, rfl, .cons (coversClause_of_words htokens hwords hend hplace.symm) hclauses⟩

/-! ### Select lists -/

/-- Behind a `SELECT` a keyword other than `UNION` is not missed at the end of the scope. -/
theorem TokenTable.Holds.isKeyword_behind {as after : List Token} {select : Token} {k : Keyword} (h : T.Holds q)
    (hq : q.tokens = as ++ select :: after) (hk : k ≠ .UNION) {j : Nat}
    (hj : j ≤ (after.takeWhile (Scope.reaches select.depth)).length) :
    T.isKeyword (as.length + 1 + j) k
      = ((after.takeWhile (Scope.reaches select.depth)).drop j).head?.any fun t => t.isKeyword k := by
  obtain ⟨cells, hread⟩ := h.read
  have hn := hread.nested
  rw [hq] at hn
  have hends := Scope.endsScope_of_dropWhile hn
  have hafter := List.takeWhile_append_dropWhile (p := Scope.reaches select.depth) (l := after)
  generalize after.takeWhile (Scope.reaches select.depth) = body at *
  generalize after.dropWhile (Scope.reaches select.depth) = rest at *
  have htoken : q.tokens[as.length + 1 + j]? = (body.drop j ++ rest).head? := by
    rw [hq, Nat.add_assoc, Nat.add_comm 1, List.getElem?_append_right (Nat.le_add_right _ _), Nat.add_sub_cancel_left,
      List.getElem?_cons_succ, ← List.head?_drop, ← hafter, List.drop_append_of_le_length hj]
  rw [h.isKeyword_eq, htoken]
  cases hdrop : body.drop j with
  | cons t ts => rfl
  | nil =>
    cases rest with
    | nil => rfl
    | cons t rest =>
      show t.isKeyword k = false
      refine Bool.eq_false_iff.2 fun htk => ?_
      rcases hends t rfl with hright | hsemi | hunion
      · rw [Token.isSymbol_eq_false_of_isKeyword htk] at hright
        cases hright
      · rw [Token.isSymbol_eq_false_of_isKeyword htk] at hsemi
        cases hsemi
      · rw [Token.isKeyword, Kind.isKeyword_iff] at htk hunion
        rw [htk] at hunion
        exact hk (Kind.keyword.inj hunion)

/-- The select list starts behind the words that modify the `SELECT`. -/
theorem TokenTable.Holds.listStart_eq {as after : List Token} {select : Token} (h : T.Holds q)
    (hq : q.tokens = as ++ select :: after) :
    T.listStart as.length
      = as.length + 1 + Scope.modifierCount (after.takeWhile (Scope.reaches select.depth)) := by
  have hbehind : ∀ {k : Keyword} {j : Nat}, k ≠ .UNION → j ≤ (after.takeWhile (Scope.reaches select.depth)).length →
      _ := fun hk hj => h.isKeyword_behind hq hk hj
  generalize after.takeWhile (Scope.reaches select.depth) = body at hbehind
  have hquantified : (T.isKeyword (as.length + 1) .DISTINCT || T.isKeyword (as.length + 1) .ALL)
      = body.head?.any fun t => t.isKeyword .DISTINCT || t.isKeyword .ALL := by
    have hdistinct := hbehind (k := .DISTINCT) nofun (Nat.zero_le _)
    have hall := hbehind (k := .ALL) nofun (Nat.zero_le _)
    rw [Nat.add_zero, List.drop_zero] at hdistinct hall
    rw [hdistinct, hall]
    cases body <;> rfl
  unfold listStart Scope.modifierCount
  simp only [hquantified]
  cases hmodified : body.head?.any fun t => t.isKeyword .DISTINCT || t.isKeyword .ALL with
  | false =>
    have htop := hbehind (k := .TOP) (j := 0) nofun (Nat.zero_le _)
    rw [Nat.add_zero] at htop
    simp only [Bool.false_eq_true, if_false, htop]
    split <;> rfl
  | true =>
    have hlength : 1 ≤ body.length := by
      cases body with
      | nil => cases hmodified
      | cons => exact Nat.succ_pos _
    have htop := hbehind (k := .TOP) nofun hlength
    simp only [if_true, htop]
    split <;> rfl

/-- What is left of a stretch behind so many tokens, and none where there are fewer. -/
theorem CoversTokens.drop {stop : Nat} (h : CoversTokens q ⟨i, stop⟩ ts) (n : Nat) :
    CoversTokens q ⟨i + n, max stop (i + n)⟩ (ts.drop n) := by
  have hstop : stop = i + ts.length := h.stop_eq
  by_cases hn : n ≤ ts.length
  · have hmax : max stop (i + n) = stop := by omega
    rw [← List.take_append_drop n ts] at h
    have hright := h.right
    rw [List.length_take_of_le hn] at hright
    rw [hmax]
    exact hright
  · have hmax : max stop (i + n) = i + n := by omega
    rw [hmax, List.drop_eq_nil_of_le (by omega)]
    exact .nil q _

/-! ### Scopes -/

/-- Whether a scope of a table is a scope of a query. -/
structure CoversScope (q : Query) (s : TableScope) (scope : Scope) : Prop where
  select : q.tokens[s.select]? = some scope.select
  depth : s.depth = scope.depth
  body : CoversTokens q ⟨s.select + 1, s.stop⟩ scope.body
  listStart : s.list.start = s.select + 1 + Scope.modifierCount scope.body
  list : CoversTokens q s.list scope.list
  clauses : List.Forall₂ (CoversClause q) s.clauses scope.clauses

theorem TokenTable.Holds.scopeAt_eq {as after : List Token} {select : Token} (h : T.Holds q)
    (hq : q.tokens = as ++ select :: after) :
    ∃ s, T.scopeAt as.length = .ok s ∧ CoversScope q s (Scope.ofSelect q.stop select after) := by
  have hselect : q.tokens[as.length]? = some select := by
    rw [hq, List.getElem?_append_right (Nat.le_refl _), Nat.sub_self]
    rfl
  have hbehind : q.tokens = (as ++ [select]) ++ after := by
    rw [hq, List.append_assoc]
    rfl
  obtain ⟨marks, hscan, hfirst, hclauses⟩ := h.scan_eq select.depth hbehind rfl rfl
  have hall := List.takeWhile_append_dropWhile (p := Scope.reaches select.depth) (l := after)
  have hbody := CoversTokens.of_eq (hbehind.trans (congrArg _ hall.symm))
  have hstart := h.listStart_eq hq
  rw [List.length_append, List.length_singleton] at hscan hfirst hclauses hbody
  have hindices : TokenRange.indices ⟨as.length + 1, q.tokens.length⟩ = List.range' (as.length + 1) after.length := by
    rw [TokenRange.indices, TokenRange.size, hbehind, List.length_append, List.length_append, List.length_singleton,
      Nat.add_sub_cancel_left]
  rw [scopeAt, h.token_eq hselect, ok_bind, h.eof_eq, ok_bind, hindices, hscan, ok_bind]
  refine ⟨_, rfl, hselect, rfl, hbody, hstart, ?_, hclauses⟩
  -- The list is what is left of the front behind the modifiers.
  obtain ⟨bs, hcut, -⟩ := Clause.cut_fst select.depth
    (Token.startOr q.stop (after.dropWhile (Scope.reaches select.depth))) (after.takeWhile (Scope.reaches select.depth))
  have hlist : (Scope.ofSelect q.stop select after).list = (Clause.cut select.depth
      (Token.startOr q.stop (after.dropWhile (Scope.reaches select.depth)))
      (after.takeWhile (Scope.reaches select.depth))).1.drop
        (Scope.modifierCount (after.takeWhile (Scope.reaches select.depth))) := rfl
  simp only [hfirst, hstart, hlist]
  generalize (Clause.cut select.depth _ _).1 = front at hcut
  generalize Scope.modifierCount (after.takeWhile (Scope.reaches select.depth)) = n
  rw [hcut] at hbody
  exact hbody.left.drop n

/-- **Scopes of tables.**  The scopes of a table are those of the query. -/
theorem TokenTable.Holds.scopes_eq (h : T.Holds q) :
    ∃ ss, T.scopes = .ok ss ∧ List.Forall₂ (CoversScope q) ss q.scopes := by
  have hfrom : ∀ {as ts : List Token}, q.tokens = as ++ ts →
      ∃ ss, (List.range' as.length ts.length).filterMapM T.scopeAt? = .ok ss ∧
        List.Forall₂ (CoversScope q) ss (Scope.among q.stop ts) := by
    intro as ts hq
    induction ts generalizing as with
    | nil => exact ⟨[], rfl, .nil⟩
    | cons t ts ih =>
      obtain ⟨ss, hss, hscopes⟩ := @ih (as ++ [t]) (by rw [hq, List.append_assoc]; rfl)
      rw [List.length_append, List.length_singleton] at hss
      have ht : q.tokens[as.length]? = some t := by
        rw [hq, List.getElem?_append_right (Nat.le_refl _), Nat.sub_self]
        rfl
      rw [List.length_cons, List.range'_succ, List.filterMapM_cons, scopeAt?, h.token_eq ht, ok_bind, Scope.among]
      by_cases hselect : t.isKeyword .SELECT = true
      · obtain ⟨s, hs, hscope⟩ := h.scopeAt_eq hq
        rw [if_pos hselect, if_pos hselect, hs, hss]
        exact ⟨_, rfl, .cons hscope hscopes⟩
      · rw [if_neg hselect, if_neg hselect, hss]
        exact ⟨_, rfl, hscopes⟩
  rw [scopes, h.indices_eq, ok_bind]
  exact hfrom (show q.tokens = [] ++ q.tokens from rfl)

/-- Where two lists are related one by one, looking for a thing finds related things. -/
theorem forall₂_find?_cases {α β : Type} {R : α → β → Prop} {as : List α} {bs : List β} {p : α → Bool} {p' : β → Bool}
    (h : List.Forall₂ R as bs) (hp : ∀ a b, R a b → p a = p' b) :
    as.find? p = none ∧ bs.find? p' = none ∨ ∃ a b, as.find? p = some a ∧ bs.find? p' = some b ∧ R a b := by
  induction h with
  | nil => exact .inl ⟨rfl, rfl⟩
  | @cons a b as bs hab _ ih =>
    rw [List.find?_cons, List.find?_cons, ← hp a b hab]
    cases p a with
    | true => exact .inr ⟨a, b, rfl, rfl, hab⟩
    | false => exact ih

/-- Looking for a kind of clause finds the same in both. -/
theorem CoversScope.clause?_cases {s : TableScope} {scope : Scope} (h : CoversScope q s scope) (kind : ClauseKind) :
    s.clause? kind = none ∧ scope.clause? kind = none ∨
      ∃ r c, s.clause? kind = some r ∧ scope.clause? kind = some c ∧ CoversClause q (kind, r) c := by
  unfold TableScope.clause? Scope.clause?
  rcases forall₂_find?_cases (List.rel_reverse h.clauses) (p := fun c => c.1 = kind)
    fun c clause hc => by rw [hc.kind] with ⟨hnone, hnone'⟩ | ⟨c, clause, hc, hclause, hcovers⟩
  · exact .inl ⟨by rw [hnone]; rfl, hnone'⟩
  · obtain rfl : c.1 = kind := by simpa using List.find?_some hc
    exact .inr ⟨c.2, clause, by rw [hc]; rfl, hclause, hcovers⟩

/-- A token stands at one number. -/
theorem Query.IsRead.getElem?_inj {j : Nat} (h : q.IsRead tail) (hi : q.tokens[i]? = some t)
    (hj : q.tokens[j]? = some t) : i = j := by
  obtain ⟨hilt, rfl⟩ := List.getElem?_eq_some_iff.1 hi
  obtain ⟨hjlt, heq⟩ := List.getElem?_eq_some_iff.1 hj
  have hpairs := List.pairwise_iff_getElem.1 h.pairwise_start
  rcases Nat.lt_trichotomy i j with hlt | rfl | hlt
  · have := hpairs i j hilt hjlt hlt
    rw [heq] at this
    exact absurd this (Nat.lt_irrefl _)
  · rfl
  · have := hpairs j i hjlt hilt hlt
    rw [heq] at this
    exact absurd this (Nat.lt_irrefl _)

/-- A token is one of a stretch just if its number is in the range. -/
theorem CoversTokens.mem_iff (h : CoversTokens q r ts) (hread : q.IsRead tail) (ht : q.tokens[i]? = some t) :
    t ∈ ts ↔ r.start ≤ i ∧ i < r.stop := by
  have hstop := h.stop_eq
  constructor
  · intro hmem
    obtain ⟨as, bs, rfl⟩ := List.append_of_mem hmem
    obtain rfl := hread.getElem?_inj ht h.getElem?
    rw [List.length_append, List.length_cons] at hstop
    omega
  · rintro ⟨hle, hlt⟩
    obtain ⟨bs, hbs⟩ := h.within
    have hj : (ts ++ bs)[i - r.start]? = some t := by
      rw [hbs, List.getElem?_drop, Nat.add_sub_cancel' hle, ht]
    rw [List.getElem?_append_left (by omega)] at hj
    exact List.mem_of_getElem? hj

/-- The innermost scope around a token of a select list is found in both. -/
theorem TokenTable.Holds.scopeOfListed?_cases (h : T.Holds q) (ht : q.tokens[i]? = some t) :
    T.scopeOfListed? i = .ok none ∧ q.scopeOfListed? t = none ∨
      ∃ s scope, T.scopeOfListed? i = .ok (some s) ∧ q.scopeOfListed? t = some scope ∧ CoversScope q s scope := by
  obtain ⟨cells, hread⟩ := h.read
  obtain ⟨ss, hss, hscopes⟩ := h.scopes_eq
  rw [scopeOfListed?, hss, ok_bind, Query.scopeOfListed?]
  rcases forall₂_find?_cases (List.rel_reverse hscopes) (p := fun s => s.list.start ≤ i ∧ i < s.list.stop)
    fun s scope hs => decide_eq_decide.2 (hs.list.mem_iff hread ht).symm with ⟨hnone, hnone'⟩ | ⟨s, scope, hs, hscope, hcovers⟩
  · exact .inl ⟨by rw [hnone]; rfl, hnone'⟩
  · exact .inr ⟨s, scope, by rw [hs]; rfl, hscope, hcovers⟩

end JetAdapter
