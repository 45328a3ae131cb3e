import JetAdapter.Proofs.JoinSwaps
import JetAdapter.Proofs.Spacing

/-!
# Depths inside a scope

A scope has a depth of its own, that of its `SELECT`.  The words that open its clauses, the commas and the words of
joins that count for it stand at that depth, and so do the first and the last token of every stretch between
two of them: only behind a parenthesis the depth changes.

So the places where joins are nested are places before a token behind a `FROM` or a comma, or behind a token that
is neither of them and no opening parenthesis (`JoinChain.Inserts`).
-/

namespace JetAdapter

open Token (Nested)

/-! ### Neighbours -/

namespace Token

variable {as bs ts : List Token} {t u : Token} {d depth stop : Nat}

/-- How the depth goes on behind a token. -/
theorem Nested.next (h : Nested d (as ++ t :: u :: bs)) :
    if t.isSymbol .leftParen = true then
      if u.isSymbol .rightParen = true then u.depth = t.depth else u.depth = t.depth + 1
    else
      if u.isSymbol .rightParen = true then u.depth + 1 = t.depth else u.depth = t.depth := by
  induction as generalizing d with
  | nil =>
    -- What stands behind `t` is read inside `e` open parentheses.
    have hnext : ∀ {e : Nat}, Nested e (u :: bs) →
        if u.isSymbol .rightParen = true then u.depth + 1 = e else u.depth = e := by
      intro e hu
      have hleft : u.isSymbol .leftParen = true → u.isSymbol .rightParen = false := by
        intro hl
        have hk : u.kind = .symbol .leftParen := Kind.isSymbol_iff.1 hl
        simp [isSymbol, Kind.isSymbol, hk]
      cases hu with
      | opening paren depth rest => rw [if_neg (by simp [hleft paren]), depth]
      | closing paren depth rest => rw [if_pos paren, depth]
      | plain left right depth rest => rw [if_neg (by simp [right]), depth]
    cases h with
    | opening paren depth rest =>
      have := hnext rest
      rw [if_pos paren]
      split
      · next hr =>
        rw [if_pos hr] at this
        omega
      · next hr =>
        rw [if_neg hr] at this
        omega
    | closing paren depth rest =>
      have hl : t.isSymbol .leftParen = false := by
        have hk : t.kind = .symbol .rightParen := Kind.isSymbol_iff.1 paren
        simp [isSymbol, Kind.isSymbol, hk]
      rw [if_neg (by simp [hl]), depth]
      exact hnext rest
    | plain left right depth rest =>
      rw [if_neg (by simp [left]), depth]
      exact hnext rest
  | cons a as ih =>
    cases h with
    | opening paren depth rest => exact ih rest
    | closing paren depth rest => exact ih rest
    | plain left right depth rest => exact ih rest

/-- The depth is that of no open parentheses in the end. -/
theorem Nested.depth_last (h : Nested d (as ++ [t])) : t.depth = 0 := by
  induction as generalizing d with
  | nil =>
    cases h with
    | opening paren depth rest => cases rest
    | closing paren depth rest =>
      cases rest
      exact depth
    | plain left right depth rest =>
      cases rest
      exact depth
  | cons a as ih =>
    cases h with
    | opening paren depth rest => exact ih rest
    | closing paren depth rest => exact ih rest
    | plain left right depth rest => exact ih rest

/-- Whether what comes behind a stretch of some depth ends it: a token of the depth or the parenthesis that
closes around it. -/
def Closes (depth : Nat) (bs : List Token) : Prop :=
  ∀ v ∈ bs.head?, v.depth ≤ depth ∧ (v.isSymbol .rightParen = true → v.depth < depth)

/-- The last token before what ends a stretch is at the depth of the stretch, and opens no parenthesis. -/
theorem Nested.level_last (h : Nested d (as ++ t :: bs)) (hb : Closes depth bs) (ht : depth ≤ t.depth) :
    t.depth = depth ∧ t.isSymbol .leftParen = false := by
  cases bs with
  | nil =>
    have hzero := h.depth_last
    refine ⟨by omega, Bool.eq_false_iff.2 fun hl => ?_⟩
    have hopen : ∀ {as : List Token} {e : Nat}, ¬ Nested e (as ++ [t]) := by
      intro as
      induction as with
      | nil =>
        intro e hn
        cases hn with
        | opening paren depth rest => cases rest
        | closing paren depth rest =>
          have hk : t.kind = .symbol .leftParen := Kind.isSymbol_iff.1 hl
          simp [isSymbol, Kind.isSymbol, hk] at paren
        | plain left right depth rest =>
          rw [left] at hl
          cases hl
      | cons a as ih =>
        intro e hn
        cases hn with
        | opening paren depth rest => exact ih rest
        | closing paren depth rest => exact ih rest
        | plain left right depth rest => exact ih rest
    exact hopen h
  | cons v bs =>
    obtain ⟨hle, hright⟩ := hb v rfl
    have hnext := h.next
    split at hnext
    · split at hnext
      · next hr =>
        have := hright hr
        omega
      · omega
    · next hl =>
      refine ⟨?_, Bool.eq_false_iff.2 hl⟩
      split at hnext
      · next hr =>
        have := hright hr
        omega
      · omega

/-- The first token behind one of a depth that opens no parenthesis is at that depth. -/
theorem Nested.level_first (h : Nested d (as ++ t :: u :: bs)) (ht : t.isSymbol .leftParen = false)
    (hu : t.depth ≤ u.depth) : u.depth = t.depth := by
  have hnext := h.next
  rw [if_neg (by simp [ht])] at hnext
  split at hnext
  · omega
  · exact hnext

/-- No piece holds a comma of its depth. -/
theorem not_comma_of_mem_pieces {piece : Piece} {ts : List Token} (h : piece ∈ pieces depth stop ts) :
    ∀ t ∈ piece.tokens, t.isSymbolAt depth .comma = false := by
  obtain ⟨first, ps, hps⟩ := List.exists_cons_of_ne_nil (pieces_ne_nil depth stop ts)
  obtain ⟨bs, hts, hall, hbs⟩ := pieces_eq_cons hps
  rw [hps] at h
  rcases List.mem_cons.1 h with rfl | h
  · exact hall
  · rcases hbs with ⟨-, rfl⟩ | ⟨c, us, rfl, hc, rfl⟩
    · cases h
    · have : us.length < ts.length := by
        rw [hts]
        simp
        omega
      exact not_comma_of_mem_pieces h
termination_by ts.length

theorem isSymbol_eq_false_of_isKeyword {k : Keyword} {s : Symbol} (h : t.isKeyword k = true) :
    t.isSymbol s = false := by
  have hk : t.kind = .keyword k := Kind.isKeyword_iff.1 h
  simp [isSymbol, Kind.isSymbol, hk]

theorem isSymbol_eq_false_of_isSymbol {s s' : Symbol} (h : t.isSymbol s = true) (hne : s ≠ s') :
    t.isSymbol s' = false := by
  have hk : t.kind = .symbol s := Kind.isSymbol_iff.1 h
  simp [isSymbol, Kind.isSymbol, hk, hne]

/-- Whether a token is a keyword that no value starts with, as the words of an operator are. -/
def IsJoinWord (t : Token) : Prop :=
  ∃ k : Keyword, k.startsValue = false ∧ t.isKeyword k = true

end Token

/-! ### Clauses -/

namespace Clause

variable {depth stop : Nat} {ts : List Token} {c : Clause}

theorem opened?_isSome_of_from {t : Token} (h : t.isKeyword .FROM = true) (ts : List Token) :
    (opened? t ts).isSome = true := by
  have hk : t.kind = .keyword .FROM := Kind.isKeyword_iff.1 h
  simp [opened?, hk, Kind.keyword?]

/-- A clause is opened by a keyword. -/
theorem HasWords.exists_isKeyword {kind : ClauseKind} {ws : List Token} (h : HasWords depth kind ws) :
    ∀ t ∈ ws.head?, ∃ k, t.isKeyword k = true := by
  intro t ht
  cases h with
  | tables word | filter word | groupFilter word | groups word | ordering word =>
    cases ht
    exact ⟨_, word⟩

theorem exists_isKeyword_of_opened? {t : Token} (h : (opened? t ts).isSome = true) :
    ∃ k, t.isKeyword k = true := by
  obtain ⟨⟨kind, more⟩, hopen⟩ := Option.isSome_iff_exists.1 h
  have hwords : HasWords t.depth kind (t :: (cut t.depth 0 ts).1.take more) := hasWords rfl hopen
  exact hwords.exists_isKeyword t rfl

/-- Where nothing opens a clause, no cut is made. -/
theorem cut_append_of_not {us : List Token} (h : ∀ t ∈ us, t.depth = depth → ∀ after, opened? t after = none)
    (stop : Nat) (ts : List Token) :
    cut depth stop (us ++ ts) = (us ++ (cut depth stop ts).1, (cut depth stop ts).2) := by
  induction us with
  | nil => rfl
  | cons t us ih =>
    obtain ⟨ht, hus⟩ := List.forall_mem_cons.1 h
    have hnone : (if t.depth = depth then opened? t (us ++ ts) else none) = none := by
      split
      · next hd => exact ht hd _
      · rfl
    rw [List.cons_append, cut, hnone, ih hus]
    rfl

/-- Neither before the first clause nor in a clause stands a `FROM` of the depth. -/
theorem not_from_of_mem_cut :
    (∀ t ∈ (cut depth stop ts).1, t.depth = depth → t.isKeyword .FROM = false) ∧
      ∀ c ∈ (cut depth stop ts).2, ∀ t ∈ c.body, t.depth = depth → t.isKeyword .FROM = false := by
  induction ts with
  | nil => exact ⟨nofun, nofun⟩
  | cons t ts ih =>
    rw [cut]
    simp only
    split
    · next hopen =>
      refine ⟨fun u hu hd => ?_, ih.2⟩
      rcases List.mem_cons.1 hu with rfl | hu
      · rw [if_pos hd] at hopen
        refine Bool.eq_false_iff.2 fun hfrom => ?_
        have := opened?_isSome_of_from hfrom ts
        rw [hopen] at this
        cases this
      · exact ih.1 u hu hd
    · refine ⟨?_, fun c hc => ?_⟩
      · intro u hu
        cases hu
      rcases List.mem_cons.1 hc with rfl | hc
      · exact fun u hu hd => ih.1 u (List.mem_of_mem_drop hu) hd
      · exact ih.2 c hc

end Clause

namespace Query.IsRead

variable {q : Query} {s : Scope} {c : Clause} {tail : List Cell}

theorem depth_le_of_mem_body (hs : s ∈ q.scopes) : ∀ t ∈ s.body, s.depth ≤ t.depth := by
  obtain ⟨as, after, hq, heq, -⟩ := Scope.mem_among hs
  intro t ht
  rw [heq] at ht
  have := List.all_eq_true.1 List.all_takeWhile t ht
  rw [Scope.reaches, Bool.and_eq_true, decide_eq_true_eq] at this
  exact this.1

/-- What comes behind a scope ends what is at its depth. -/
theorem closes_of_dropWhile {depth : Nat} {after : List Token} :
    Token.Closes depth (after.dropWhile (Scope.reaches depth)) := by
  intro v hv
  have hnot : Scope.reaches depth v = false := by
    have := List.head?_dropWhile_not (Scope.reaches depth) after
    rw [hv] at this
    exact this
  rw [Scope.reaches] at hnot
  by_cases hlt : v.depth < depth
  · exact ⟨by omega, fun _ => hlt⟩
  · have hor : v.depth = depth ∧ (v.isKeyword .UNION = false → v.isSymbol .semicolon = true) := by
      have hle : depth ≤ v.depth := by omega
      simpa [hle] using hnot
    refine ⟨Nat.le_of_eq hor.1, fun hr => ?_⟩
    cases hunion : v.isKeyword .UNION with
    | true =>
      rw [Token.isSymbol_eq_false_of_isKeyword hunion] at hr
      cases hr
    | false =>
      rw [Token.isSymbol_eq_false_of_isSymbol (hor.2 hunion) (by decide)] at hr
      cases hr

theorem closes_of_endsAt {depth : Nat} {bs rest : List Token} (h : Clause.EndsAt depth bs)
    (hrest : Token.Closes depth rest) : Token.Closes depth (bs ++ rest) := by
  rcases h with rfl | ⟨b, us, rfl, hd, hopen⟩
  · exact hrest
  · intro v hv
    obtain rfl : b = v := by simpa using hv
    refine ⟨Nat.le_of_eq hd, fun hr => ?_⟩
    obtain ⟨k, hk⟩ := Clause.exists_isKeyword_of_opened? hopen
    rw [Token.isSymbol_eq_false_of_isKeyword hk] at hr
    cases hr

/-- A clause of a scope and the depths around it. -/
theorem clause_level (h : q.IsRead tail) (hs : s ∈ q.scopes) (hc : c ∈ s.clauses) :
    ∃ as bs, q.tokens = as ++ (c.words ++ (c.body ++ bs)) ∧ Clause.HasWords s.depth c.kind c.words ∧
      AtEnd bs ∧ Token.Closes s.depth bs ∧ (∀ t ∈ c.body, s.depth ≤ t.depth) ∧
      ∀ t ∈ c.body, t.depth = s.depth → t.isKeyword .FROM = false := by
  obtain ⟨as, after, hq, heq, -⟩ := Scope.mem_among hs
  have hafter := List.takeWhile_append_dropWhile (p := Scope.reaches s.depth) (l := after)
  have hbody : s.body = after.takeWhile (Scope.reaches s.depth) := by
    rw [heq]
    rfl
  have hclauses : s.clauses = (Clause.cut s.depth (Token.startOr q.stop
      (after.dropWhile (Scope.reaches s.depth))) s.body).2 := by
    rw [heq]
    rfl
  have hends := Scope.endsScope_of_dropWhile (hq ▸ h.nested)
  rw [hclauses] at hc
  obtain ⟨bs, us, hcut, hwords, hus⟩ := Clause.mem_cut hc
  have hnot := Clause.not_from_of_mem_cut.2 c hc
  rw [← hbody] at hafter
  generalize Token.startOr q.stop (after.dropWhile (Scope.reaches s.depth)) = stop at hcut
  generalize hrest : after.dropWhile (Scope.reaches s.depth) = rest at hafter
  have hclose : Token.Closes s.depth (us ++ rest) := by
    rw [← hrest]
    exact closes_of_endsAt hus closes_of_dropWhile
  refine ⟨as ++ s.select :: ((Clause.cut s.depth stop s.body).1 ++ bs), us ++ rest, ?_, hwords, ?_, hclose,
    fun t ht => depth_le_of_mem_body hs t ?_, hnot⟩
  · rw [hq, ← hafter]
    conv => lhs; rw [hcut]
    simp
  · intro v hv
    rcases hus with rfl | ⟨b, vs, rfl, -, hopen⟩
    · exact (hends v (by rw [show s.select.depth = s.depth from rfl, hrest]; exact hv)).endsClause
    · obtain rfl : b = v := by simpa using hv
      exact Clause.endsClause_of_opened? hopen
  · rw [hcut]
    simp [ht]

end Query.IsRead

/-! ### Blocks of joins -/

namespace JoinChain

variable {q : Query} {s : Scope} {tail : List Cell} {e : Edit} {depth : Nat} {block : List Token}
  {chain : JoinChain} {l : JoinLink}

/-- A block of a `FROM` clause and what stands around it. -/
theorem block_level {clause : Clause} {b : Token.Piece} (h : q.IsRead tail) (hs : s ∈ q.scopes)
    (hclause : s.clause? .tables = some clause)
    (hb : b ∈ Token.pieces s.depth clause.stop clause.body) :
    ∃ as w bs, q.tokens = as ++ w :: (b.tokens ++ bs) ∧
      (w.isKeyword .FROM = true ∨ w.isSymbol .comma = true) ∧ w.depth = s.depth ∧
      Token.Closes s.depth bs ∧ (∀ u ∈ bs.head?, u.EndsClause ∨ u.isSymbol .comma = true) ∧
      ∀ t ∈ b.tokens, s.depth ≤ t.depth ∧ (t.depth = s.depth →
        t.isKeyword .FROM = false ∧ t.isSymbol .comma = false) := by
  have hmem : clause ∈ s.clauses := by
    simpa using List.mem_of_find?_eq_some hclause
  have hkind : clause.kind = .tables := by
    simpa using List.find?_some hclause
  obtain ⟨as, bs, hq, hwords, hend, hclose, hdepth, hnot⟩ := h.clause_level hs hmem
  rw [hkind] at hwords
  have hcomma := Token.not_comma_of_mem_pieces hb
  obtain ⟨us, vs, hbody, hus, hvs⟩ := Token.mem_pieces hb
  have hat : ∀ {c : Token}, c.isSymbolAt s.depth .comma = true →
      c.isSymbol .comma = true ∧ c.depth = s.depth := by
    intro c hc
    rw [Token.isSymbolAt, Bool.and_eq_true, beq_iff_eq] at hc
    exact ⟨hc.2, hc.1⟩
  have htokens : ∀ t ∈ b.tokens, s.depth ≤ t.depth ∧ (t.depth = s.depth →
      t.isKeyword .FROM = false ∧ t.isSymbol .comma = false) := by
    intro t ht
    have hin : t ∈ clause.body := by
      rw [hbody]
      simp [ht]
    refine ⟨hdepth t hin, fun hd => ⟨hnot t hin hd, ?_⟩⟩
    have := hcomma t ht
    rw [Token.isSymbolAt, hd, beq_self_eq_true, Bool.true_and] at this
    exact this
  -- What stands before the block.
  obtain ⟨as', w, hw, hopens, hlevel⟩ : ∃ as' w, as ++ clause.words ++ us = as' ++ [w] ∧
      (w.isKeyword .FROM = true ∨ w.isSymbol .comma = true) ∧ w.depth = s.depth := by
    rcases hus with rfl | ⟨us', c, rfl, hc⟩
    · generalize clause.words = ws at hwords
      cases hwords with
      | @tables t word at_ => exact ⟨as, t, by simp, .inl word, at_⟩
    · exact ⟨as ++ clause.words ++ us', c, by simp, .inr (hat hc).1, (hat hc).2⟩
  refine ⟨as', w, vs ++ bs, ?_, hopens, hlevel, ?_, ?_, htokens⟩
  · rw [hq, hbody, List.append_cons as', ← hw]
    simp
  · rcases hvs with rfl | ⟨c, vs', rfl, hc⟩
    · exact hclose
    · intro v hv
      obtain rfl : c = v := by simpa using hv
      refine ⟨Nat.le_of_eq (hat hc).2, fun hr => ?_⟩
      rw [Token.isSymbol_eq_false_of_isSymbol (hat hc).1 (by decide)] at hr
      cases hr
  · intro v hv
    rcases hvs with rfl | ⟨c, vs', rfl, hc⟩
    · exact .inl (hend v hv)
    · obtain rfl : c = v := by simpa using hv
      exact .inr (hat hc).1

theorem isKeywordAt_of_mem_cut (depth : Nat) (ts : List Token) :
    ∀ l ∈ (cut depth ts).2, l.join.isKeywordAt depth .JOIN = true := by
  induction ts with
  | nil => exact nofun
  | cons t ts ih =>
    rw [cut]
    simp only
    split
    · next hj =>
      rw [List.forall_mem_cons]
      exact ⟨hj, ih⟩
    · exact ih

/-- The words of an operator that are dropped are keywords. -/
theorem exists_words_of_dropOperator {part rest : List Token} (h : dropOperator part = .ok rest) :
    ∃ words, part = rest ++ words ∧ ∀ w ∈ words, w.IsJoinWord := by
  have hkey : ∀ {t : Token} {k : Keyword}, t.kind.keyword? = some k → k.startsValue = false → t.IsJoinWord := by
    intro t k hk hstarts
    refine ⟨k, hstarts, ?_⟩
    cases ht : t.kind with
    | keyword k' =>
      rw [ht] at hk
      obtain rfl : k' = k := by simpa [Kind.keyword?] using hk
      simp [Token.isKeyword, Kind.isKeyword, ht]
    | _ =>
      rw [ht] at hk
      cases hk
  unfold dropOperator at h
  split at h
  · cases h
    exact ⟨[], (List.append_nil _).symm, List.forall_mem_nil _⟩
  · next last before hrev =>
    have hpart : part = before.reverse ++ [last] := List.reverse_eq_cons_iff.1 hrev
    have hone : ∀ {k : Keyword}, last.kind.keyword? = some k → k.startsValue = false →
        ∃ words, part = before.reverse ++ words ∧ ∀ w ∈ words, w.IsJoinWord := by
      intro k hk hstarts
      refine ⟨[last], hpart, ?_⟩
      rw [List.forall_mem_singleton]
      exact hkey hk hstarts
    split at h
    · cases h
    · cases h
    · next hk =>
      cases h
      exact hone hk rfl
    · next hk =>
      cases h
      exact hone hk rfl
    · next hk =>
      cases h
      exact hone hk rfl
    · next hk =>
      have htwo : ∀ {side : Token} {more : List Token} {k : Keyword}, before = side :: more →
          side.kind.keyword? = some k → k.startsValue = false →
          ∃ words, part = more.reverse ++ words ∧ ∀ w ∈ words, w.IsJoinWord := by
        rintro side more k rfl hs hstarts
        refine ⟨[side, last], by rw [hpart]; simp, ?_⟩
        rw [List.forall_mem_cons, List.forall_mem_singleton]
        exact ⟨hkey hs hstarts, hkey hk rfl⟩
      split at h
      · cases h
      · split at h
        · cases h
        · cases h
        · next hs =>
          cases h
          exact htwo rfl hs rfl
        · next hs =>
          cases h
          exact htwo rfl hs rfl
        · cases h
    · cases h
      exact ⟨[], (List.append_nil _).symm, List.forall_mem_nil _⟩

/-- What comes behind a member of a chain: nothing, or the words of an operator and its `JOIN`. -/
def Goes (depth : Nat) (vs : List Token) : Prop :=
  vs = [] ∨ ∃ words j ws, vs = words ++ j :: ws ∧ (∀ w ∈ words, w.IsJoinWord) ∧
    j.isKeywordAt depth .JOIN = true

theorem goes_of_dropOperators {link : JoinLink} {others links : List JoinLink}
    (h : dropOperators link others = .ok links)
    (hj : ∀ l ∈ others, l.join.isKeywordAt depth .JOIN = true) :
    ∀ l ∈ links, ∃ us vs, ((link :: others).flatMap fun l => l.join :: l.operand)
      = us ++ (l.operand ++ vs) ∧ Goes depth vs := by
  induction others generalizing link links with
  | nil =>
    cases h
    rw [List.forall_mem_singleton]
    exact ⟨[link.join], [], by simp, .inl rfl⟩
  | cons next others ih =>
    rw [dropOperators] at h
    obtain ⟨operand, hoperand, h⟩ := Except.bind_eq_ok h
    obtain ⟨links', hrest, h⟩ := Except.bind_eq_ok h
    cases h
    obtain ⟨hnext, hothers⟩ := List.forall_mem_cons.1 hj
    obtain ⟨words, hwords, hkeys⟩ := exists_words_of_dropOperator hoperand
    rw [List.forall_mem_cons]
    refine ⟨⟨[link.join], words ++ next.join :: (next.operand ++ others.flatMap fun l => l.join :: l.operand),
      ?_, .inr ⟨words, next.join, _, rfl, hkeys, hnext⟩⟩, fun l hl => ?_⟩
    · simp [hwords]
    · obtain ⟨us, vs, heq, hgoes⟩ := ih hrest hothers l hl
      refine ⟨link.join :: (link.operand ++ us), vs, ?_, hgoes⟩
      rw [List.flatMap_cons, heq]
      simp

/-- A further member of a chain is a stretch of its block. -/
theorem exists_of_link (h : ofBlock depth block = .ok chain) (hl : l ∈ chain.links) :
    ∃ us vs, block = us ++ (l.operand ++ vs) ∧ l.operand ≠ [] ∧ Goes depth vs := by
  have hcut := eq_of_cut depth block
  have hjoins := isKeywordAt_of_mem_cut depth block
  unfold ofBlock at h
  split at h
  · cases h
    cases hl
  · next part first others hc =>
    rw [hc] at hcut hjoins
    obtain ⟨head, hhead, h⟩ := Except.bind_eq_ok h
    split at h
    · cases h
    obtain ⟨links, hlinks, h⟩ := Except.bind_eq_ok h
    obtain ⟨_, hcheck, h⟩ := Except.bind_eq_ok h
    cases h
    obtain ⟨us, vs, heq, hgoes⟩ :=
      goes_of_dropOperators hlinks (fun l hl => hjoins l (List.mem_cons_of_mem _ hl)) l hl
    refine ⟨part ++ us, vs, ?_, operand_ne_nil (forall_of_forM hcheck l hl), hgoes⟩
    rw [hcut, heq, List.append_assoc]

/-- What ends a block ends a member of its chain. -/
theorem closes_of_goes {as vs bs : List Token} {d : Nat} (hn : Token.Nested d (as ++ (vs ++ bs)))
    (hgoes : Goes depth vs) (hvs : ∀ t ∈ vs, depth ≤ t.depth) (hbs : Token.Closes depth bs) :
    Token.Closes depth (vs ++ bs) := by
  rcases hgoes with rfl | ⟨words, j, ws, rfl, hwords, hj⟩
  · exact hbs
  · rw [Token.isKeywordAt, Bool.and_eq_true, beq_iff_eq] at hj
    have hword : ∀ {t : Token} {ts : List Token} {k : Keyword}, t.isKeyword k = true → t.depth = depth →
        Token.Closes depth (t :: ts) := by
      intro t ts k hk hd v hv
      obtain rfl : t = v := by simpa using hv
      refine ⟨Nat.le_of_eq hd, fun hr => ?_⟩
      rw [Token.isSymbol_eq_false_of_isKeyword hk] at hr
      cases hr
    induction words generalizing as with
    | nil => exact hword hj.2 hj.1
    | cons w words ih =>
      obtain ⟨⟨k, -, hk⟩, hwords⟩ := List.forall_mem_cons.1 hwords
      have hrest := ih (show Token.Nested d ((as ++ [w]) ++ (words ++ j :: ws ++ bs)) by simpa using hn)
        (fun t ht => hvs t (by simpa using .inr (by simpa using ht))) hwords
      have hlevel := Token.Nested.level_last
        (show Token.Nested d (as ++ w :: (words ++ j :: ws ++ bs)) by simpa using hn) hrest (hvs w (by simp))
      exact hword hk hlevel.1

/-- An insertion before a token behind a `FROM` or a comma, or behind one that is neither and no opening
parenthesis, before what goes on with a join or ends a block; all of them at one depth. -/
inductive Inserts (q : Query) (depth : Nat) : Edit → Prop
  | before {as bs : List Token} {w t : Token} {text : SqlText} (tokens : q.tokens = as ++ w :: t :: bs)
      (opens : w.isKeyword .FROM = true ∨ w.isSymbol .comma = true) (prior : w.depth = depth)
      (level : t.depth = depth)
      (written : text = "(select * from ".toList ∨ ∃ n, text = List.replicate n '(') :
      Inserts q depth (.insert t.start text)
  | behind {as bs : List Token} {u : Token} {text : SqlText} (tokens : q.tokens = as ++ u :: bs)
      (level : u.depth = depth) (closes : Token.Closes depth bs)
      (inner : u.isKeyword .FROM = false ∧ u.isSymbol .comma = false ∧ u.isSymbol .leftParen = false)
      (goes : ∀ v ∈ bs.head?, v.EndsClause ∨ v.isSymbol .comma = true ∨ v.IsJoinWord)
      (written : text = [')'] ∨ ∃ index, text = ") as alias".toList ++ Decimal.natText index) :
      Inserts q depth (.insert u.stop text)

theorem inserts_of_mem_blockEdits {clause : Clause} {b : Token.Piece} {wrapped : Bool} {index : Nat}
    (h : q.IsRead tail) (hs : s ∈ q.scopes) (hclause : s.clause? .tables = some clause)
    (hb : b ∈ Token.pieces s.depth clause.stop clause.body) (hne : b.tokens ≠ [])
    (hchain : ofBlock s.depth b.tokens = .ok chain) (he : e ∈ blockEdits wrapped index b.tokens chain) :
    Inserts q s.depth e := by
  obtain ⟨as, w, bs, hq, hopens, hprior, hclose, hend, htokens⟩ := block_level h hs hclause hb
  have hnested := h.nested
  generalize b.tokens = block at hq hne hchain he htokens
  -- The token before a place where something ends.
  have hbehind : ∀ {us vs : List Token} {u : Token} {text : SqlText}, block = us ++ u :: vs →
      Token.Closes s.depth (vs ++ bs) →
      (∀ v ∈ (vs ++ bs).head?, v.EndsClause ∨ v.isSymbol .comma = true ∨ v.IsJoinWord) →
      (text = [')'] ∨ ∃ index, text = ") as alias".toList ++ Decimal.natText index) →
      Inserts q s.depth (.insert u.stop text) := by
    intro us vs u text hblock hcloses hgoes hwritten
    have hall : q.tokens = (as ++ w :: us) ++ u :: (vs ++ bs) := by
      rw [hq, hblock]
      simp
    obtain ⟨hle, hnot⟩ := htokens u (by rw [hblock]; simp)
    rw [hall] at hnested
    obtain ⟨hlevel, hleft⟩ := hnested.level_last hcloses hle
    exact .behind hall hlevel hcloses ⟨(hnot hlevel).1, (hnot hlevel).2, hleft⟩ hgoes hwritten
  have hbefore : ∀ {text : SqlText}, (text = "(select * from ".toList ∨ ∃ n, text = List.replicate n '(') →
      Inserts q s.depth (.insert (Token.startOr 0 block) text) := by
    intro text hwritten
    obtain ⟨t, ts, rfl⟩ := List.exists_cons_of_ne_nil hne
    have hall : q.tokens = as ++ w :: t :: (ts ++ bs) := by
      rw [hq]
      simp
    have hleft : w.isSymbol .leftParen = false := by
      rcases hopens with hk | hc
      · exact Token.isSymbol_eq_false_of_isKeyword hk
      · exact Token.isSymbol_eq_false_of_isSymbol hc (by decide)
    rw [hall] at hnested
    have hlevel := hnested.level_first hleft (by rw [hprior]; exact (htokens t List.mem_cons_self).1)
    exact .before hall hopens hprior (hlevel.trans hprior) hwritten
  cases inserted_of_mem_blockEdits he with
  | select => exact hbefore (.inl rfl)
  | opening n => exact hbefore (.inr ⟨n, rfl⟩)
  | @closing l member =>
    obtain ⟨us, vs, hblock, hoperand, hgoes⟩ := exists_of_link hchain member
    obtain ⟨us', u, hu⟩ : ∃ us' u, l.operand = us' ++ [u] :=
      ⟨_, _, (List.dropLast_append_getLast hoperand).symm⟩
    rw [hu, Token.stopOr_concat]
    rw [hu] at hblock
    refine hbehind (show block = (us ++ us') ++ u :: vs by rw [hblock]; simp) ?_ ?_ (.inl rfl)
    · rw [hq, hblock] at hnested
      have hnested : Token.Nested 0 ((as ++ w :: (us ++ (us' ++ [u]))) ++ (vs ++ bs)) := by simpa using hnested
      exact closes_of_goes hnested hgoes (fun t ht => (htokens t (by rw [hblock]; simp [ht])).1) hclose
    · intro v hv
      rcases hgoes with rfl | ⟨words, j, ws, rfl, hwords, hj⟩
      · exact (hend v hv).imp_right .inl
      · cases words with
        | nil =>
          obtain rfl : j = v := by simpa using hv
          exact .inr (.inr ⟨_, rfl, Token.isKeyword_of_isKeywordAt hj⟩)
        | cons w words =>
          obtain rfl : w = v := by simpa using hv
          exact .inr (.inr (hwords w List.mem_cons_self))
  | named =>
    obtain ⟨us, u, hu⟩ : ∃ us u, block = us ++ [u] :=
      ⟨_, _, (List.dropLast_append_getLast hne).symm⟩
    rw [hu, Token.stopOr_concat]
    exact hbehind hu hclose (fun v hv => (hend v hv).imp_right .inl) (.inr ⟨_, rfl⟩)

/-- Nesting joins inserts at such places. -/
theorem exists_inserts {es : List Edit} (h : q.IsRead tail) (hes : scopesEdits q.scopes = .ok es)
    (he : e ∈ es) : ∃ depth, Inserts q depth e := by
  obtain ⟨s, hs, clause, hclause, b, hb, hne, wrapped, i, chain, hchain, he⟩ :=
    exists_of_mem_scopesEdits hes he
  exact ⟨s.depth, inserts_of_mem_blockEdits h hs hclause hb hne hchain he⟩

end JoinChain

end JetAdapter
