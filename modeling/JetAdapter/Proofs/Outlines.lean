import JetAdapter.Proofs.JoinGrammar
import JetAdapter.Proofs.Layouts

/-!
# Outlines

A scope looks at the tokens of its own depth only: the clauses, the commas and the operators of joins that count for
it stand there, and so do the ends of all stretches between them.  The outline of a stretch is what is left of it
without the tokens that are nested deeper.  Joins are found at the same places in the outline
(`JoinChain.clauseEdits_outline`), and the clauses of a scope have the outlines that they have there
(`Scope.clause?_outline`).

`Run d ts e` says that `ts` leads from `d` open parentheses to `e`; a stretch that stays at a depth and comes back to it
is `Level`.
-/

namespace JetAdapter

variable {as bs ts us : List Token} {t : Token} {d e f depth : Nat}

/-! ### Runs -/

namespace Token

/-- Whether the depths of tokens are those of matching parentheses, and lead from so many open ones to so many. -/
inductive Run : Nat → List Token → Nat → Prop
  | nil {d : Nat} : Run d [] d
  | opening {d e : Nat} {t : Token} {ts : List Token} (paren : t.isSymbol .leftParen = true) (depth : t.depth = d)
      (rest : Run (d + 1) ts e) : Run d (t :: ts) e
  | closing {d e : Nat} {t : Token} {ts : List Token} (paren : t.isSymbol .rightParen = true) (depth : t.depth = d)
      (rest : Run d ts e) : Run (d + 1) (t :: ts) e
  | plain {d e : Nat} {t : Token} {ts : List Token} (left : t.isSymbol .leftParen = false)
      (right : t.isSymbol .rightParen = false) (depth : t.depth = d) (rest : Run d ts e) : Run d (t :: ts) e

theorem nested_iff_run : Nested d ts ↔ Run d ts 0 := by
  constructor
  · intro h
    induction h with
    | nil => exact .nil
    | opening paren depth _ ih => exact .opening paren depth ih
    | closing paren depth _ ih => exact .closing paren depth ih
    | plain left right depth _ ih => exact .plain left right depth ih
  · intro h
    generalize hzero : 0 = e at h
    induction h with
    | nil =>
      subst hzero
      exact .nil
    | opening paren depth _ ih => exact .opening paren depth (ih hzero)
    | closing paren depth _ ih => exact .closing paren depth (ih hzero)
    | plain left right depth _ ih => exact .plain left right depth (ih hzero)

namespace Run

theorem append (h : Run d as e) (h' : Run e bs f) : Run d (as ++ bs) f := by
  induction h with
  | nil => exact h'
  | opening paren depth _ ih => exact .opening paren depth (ih h')
  | closing paren depth _ ih => exact .closing paren depth (ih h')
  | plain left right depth _ ih => exact .plain left right depth (ih h')

theorem of_append (h : Run d (as ++ bs) f) : ∃ e, Run d as e ∧ Run e bs f := by
  induction as generalizing d with
  | nil => exact ⟨d, .nil, h⟩
  | cons t as ih =>
    cases h with
    | opening paren depth rest =>
      obtain ⟨e, has, hbs⟩ := ih rest
      exact ⟨e, .opening paren depth has, hbs⟩
    | closing paren depth rest =>
      obtain ⟨e, has, hbs⟩ := ih rest
      exact ⟨e, .closing paren depth has, hbs⟩
    | plain left right depth rest =>
      obtain ⟨e, has, hbs⟩ := ih rest
      exact ⟨e, .plain left right depth has, hbs⟩

/-- A token that is no parenthesis stands at the depth that the run has there. -/
theorem of_cons (h : Run d (t :: ts) e) (left : t.isSymbol .leftParen = false)
    (right : t.isSymbol .rightParen = false) : t.depth = d ∧ Run d ts e := by
  cases h with
  | opening paren => simp [left] at paren
  | closing paren => simp [right] at paren
  | plain _ _ depth rest => exact ⟨depth, rest⟩

theorem of_left (h : Run d (t :: ts) e) (left : t.isSymbol .leftParen = true) : t.depth = d ∧ Run (d + 1) ts e := by
  have hkind : t.kind = .symbol .leftParen := Kind.isSymbol_iff.1 left
  cases h with
  | opening _ depth rest => exact ⟨depth, rest⟩
  | closing right =>
    rw [Kind.isSymbol_iff.1 right] at hkind
    cases hkind
  | plain hleft => simp [hleft] at left

theorem of_right (h : Run (d + 1) (t :: ts) e) (right : t.isSymbol .rightParen = true) : Run d ts e := by
  have hkind : t.kind = .symbol .rightParen := Kind.isSymbol_iff.1 right
  cases h with
  | opening left =>
    rw [Kind.isSymbol_iff.1 left] at hkind
    cases hkind
  | closing _ _ rest => exact rest
  | plain _ hright => simp [hright] at right

/-- A run over tokens of some depth at least does not lead below it. -/
theorem le (h : Run d ts e) (hd : depth ≤ d) (hts : ∀ t ∈ ts, depth ≤ t.depth) : depth ≤ e := by
  induction h with
  | nil => exact hd
  | opening _ _ _ ih => exact ih (by omega) (List.forall_mem_cons.1 hts).2
  | closing _ hdepth _ ih =>
    obtain ⟨ht, hts⟩ := List.forall_mem_cons.1 hts
    exact ih (by omega) hts
  | plain _ _ _ _ ih => exact ih hd (List.forall_mem_cons.1 hts).2

end Run

theorem not_paren_of_isKeyword {k : Keyword} (h : t.isKeyword k = true) :
    t.isSymbol .leftParen = false ∧ t.isSymbol .rightParen = false :=
  ⟨isSymbol_eq_false_of_isKeyword h, isSymbol_eq_false_of_isKeyword h⟩

/-! ### Level stretches -/

/-- Whether a stretch stays at a depth and comes back to it. -/
structure Level (depth : Nat) (ts : List Token) : Prop where
  run : Run depth ts depth
  le : ∀ t ∈ ts, depth ≤ t.depth

namespace Level

theorem nil : Level depth [] :=
  ⟨.nil, nofun⟩

theorem append (h : Level depth as) (h' : Level depth bs) : Level depth (as ++ bs) :=
  ⟨h.run.append h'.run, List.forall_mem_append.2 ⟨h.le, h'.le⟩⟩

/-- A level stretch falls apart at a token of its depth that is no parenthesis. -/
theorem split (h : Level depth (as ++ t :: bs)) (ht : t.depth = depth) (left : t.isSymbol .leftParen = false)
    (right : t.isSymbol .rightParen = false) : Level depth as ∧ Level depth bs := by
  obtain ⟨e, has, hrest⟩ := h.run.of_append
  obtain ⟨hleas, hlebs⟩ := List.forall_mem_append.1 h.le
  obtain ⟨he, hbs⟩ := hrest.of_cons left right
  obtain rfl : depth = e := ht.symm.trans he
  exact ⟨⟨has, hleas⟩, hbs, (List.forall_mem_cons.1 hlebs).2⟩

theorem depth_first (h : Level depth (t :: ts)) : t.depth = depth := by
  have hle := h.le t List.mem_cons_self
  cases h.run with
  | opening _ hdepth => exact hdepth
  | closing _ hdepth => omega
  | plain _ _ hdepth => exact hdepth

theorem depth_last (h : Level depth (ts ++ [t])) : t.depth = depth := by
  have hle := h.le t (by simp)
  obtain ⟨e, -, hlast⟩ := h.run.of_append
  cases hlast with
  | opening _ hdepth rest =>
    cases rest
    omega
  | closing _ hdepth rest =>
    cases rest
    exact hdepth
  | plain _ _ hdepth rest =>
    cases rest
    exact hdepth

theorem of_concat (h : Level depth (ts ++ [t])) (left : t.isSymbol .leftParen = false)
    (right : t.isSymbol .rightParen = false) : Level depth ts :=
  (h.split h.depth_last left right).1

theorem tail (h : Level depth (t :: ts)) (left : t.isSymbol .leftParen = false)
    (right : t.isSymbol .rightParen = false) : Level depth ts := by
  have h' : Level depth ([] ++ t :: ts) := h
  exact (h'.split h.depth_first left right).2

end Level

/-! ### Outlines -/

/-- The tokens of a stretch that are not nested deeper than a depth. -/
def outline (depth : Nat) (ts : List Token) : List Token :=
  ts.filter fun t => t.depth ≤ depth

@[simp] theorem outline_nil : outline depth [] = [] := rfl

@[simp] theorem outline_append : outline depth (as ++ bs) = outline depth as ++ outline depth bs :=
  List.filter_append ..

theorem outline_cons_of_le (h : t.depth ≤ depth) : outline depth (t :: ts) = t :: outline depth ts :=
  List.filter_cons_of_pos (by simpa using h)

theorem outline_cons_of_lt (h : depth < t.depth) : outline depth (t :: ts) = outline depth ts :=
  List.filter_cons_of_neg (by simpa using h)

theorem outline_eq_nil (h : ∀ t ∈ ts, depth < t.depth) : outline depth ts = [] :=
  List.filter_eq_nil_iff.2 fun t ht => by simpa using h t ht

namespace Level

theorem outline_cons (h : Level depth (t :: ts)) : outline depth (t :: ts) = t :: outline depth ts :=
  outline_cons_of_le (Nat.le_of_eq h.depth_first)

theorem outline_concat (h : Level depth (ts ++ [t])) : outline depth (ts ++ [t]) = outline depth ts ++ [t] := by
  rw [outline_append, outline_cons_of_le (Nat.le_of_eq h.depth_last), outline_nil]

theorem outline_eq_nil_iff (h : Level depth ts) : outline depth ts = [] ↔ ts = [] := by
  cases ts with
  | nil => simp
  | cons t ts => simp [h.outline_cons]

theorem head?_outline (h : Level depth ts) : (outline depth ts).head? = ts.head? := by
  cases ts with
  | nil => rfl
  | cons t ts =>
    rw [h.outline_cons]
    rfl

theorem startOr_outline (h : Level depth ts) (s : Nat) : startOr s (outline depth ts) = startOr s ts := by
  cases ts with
  | nil => rfl
  | cons t ts =>
    rw [h.outline_cons]
    rfl

theorem stopOr_outline (h : Level depth ts) (s : Nat) : stopOr s (outline depth ts) = stopOr s ts := by
  rcases List.eq_nil_or_concat ts with rfl | ⟨us, u, rfl⟩
  · rfl
  · rw [List.concat_eq_append] at h ⊢
    rw [h.outline_concat, stopOr_concat, stopOr_concat]

end Level

/-- What stands at the depth is found in the outline. -/
theorem splitFirst_outline {p : Token → Bool} (hp : ∀ t, p t = true → t.depth ≤ depth) (ts : List Token) :
    splitFirst p (outline depth ts)
      = (splitFirst p ts).map fun (as, t, bs) => (outline depth as, t, outline depth bs) := by
  induction ts with
  | nil => rfl
  | cons t ts ih =>
    by_cases ht : t.depth ≤ depth
    · rw [outline_cons_of_le ht, splitFirst, splitFirst, ih]
      split
      · rfl
      · cases splitFirst p ts with
        | none => rfl
        | some s => simp [outline_cons_of_le ht]
    · have hnot : ¬ p t = true := fun h => ht (hp t h)
      rw [outline_cons_of_lt (by omega), splitFirst, if_neg hnot, ih]
      cases splitFirst p ts with
      | none => rfl
      | some s => simp [outline_cons_of_lt (Nat.lt_of_not_le ht)]

/-- A piece without what is nested deeper. -/
def Piece.outline (depth : Nat) (p : Piece) : Piece :=
  ⟨Token.outline depth p.tokens, p.stop⟩

theorem pieces_outline (depth stop : Nat) (ts : List Token) :
    pieces depth stop (outline depth ts) = (pieces depth stop ts).map (Piece.outline depth) := by
  induction ts with
  | nil => rfl
  | cons t ts ih =>
    by_cases ht : t.depth ≤ depth
    · rw [outline_cons_of_le ht, pieces, pieces, ih]
      split
      · rfl
      · cases pieces depth stop ts with
        | nil => simp [Piece.outline, outline_cons_of_le ht]
        | cons p ps => simp [Piece.outline, outline_cons_of_le ht]
    · have hnot : ¬ t.isSymbolAt depth .comma = true := fun h => ht (Nat.le_of_eq (depth_of_isSymbolAt h))
      rw [outline_cons_of_lt (by omega), pieces, if_neg hnot, ih]
      cases hps : pieces depth stop ts with
      | nil => exact absurd hps (pieces_ne_nil _ _ _)
      | cons p ps => simp [Piece.outline, outline_cons_of_lt (Nat.lt_of_not_le ht)]

theorem not_paren_of_isSymbolAt_comma (h : t.isSymbolAt depth .comma = true) :
    t.isSymbol .leftParen = false ∧ t.isSymbol .rightParen = false :=
  ⟨isSymbol_eq_false_of_isSymbol (isSymbol_of_isSymbolAt h) (by decide),
    isSymbol_eq_false_of_isSymbol (isSymbol_of_isSymbolAt h) (by decide)⟩

theorem not_paren_of_isKeywordAt {k : Keyword} (h : t.isKeywordAt depth k = true) :
    t.isSymbol .leftParen = false ∧ t.isSymbol .rightParen = false :=
  not_paren_of_isKeyword (isKeyword_of_isKeywordAt h)

/-- The stretches between the commas of a level stretch are level. -/
theorem Level.pieces {stop : Nat} (h : Level depth ts) : ∀ p ∈ pieces depth stop ts, Level depth p.tokens := by
  generalize hps : Token.pieces depth stop ts = ps
  induction ps generalizing ts with
  | nil => exact nofun
  | cons p ps ih =>
    obtain ⟨bs, rfl, -, hbs⟩ := pieces_eq_cons hps
    rcases hbs with ⟨rfl, rfl⟩ | ⟨c, us, rfl, hc, rfl⟩
    · rw [List.append_nil] at h
      exact List.forall_mem_singleton.2 h
    · obtain ⟨left, right⟩ := not_paren_of_isSymbolAt_comma hc
      obtain ⟨hfirst, hrest⟩ := h.split (depth_of_isSymbolAt hc) left right
      exact List.forall_mem_cons.2 ⟨hfirst, ih hrest rfl⟩

end Token

/-- Behind a keyword all parentheses around it are closed. -/
theorem Query.IsRead.run_behind {q : Query} {tail : List Cell} {as bs : List Token} {t : Token} {k : Keyword}
    (h : q.IsRead tail) (hq : q.tokens = as ++ t :: bs) (hk : t.isKeyword k = true) : Token.Run t.depth bs 0 := by
  have hrun := Token.nested_iff_run.1 h.nested
  rw [hq] at hrun
  obtain ⟨d, -, hrun⟩ := hrun.of_append
  obtain ⟨left, right⟩ := Token.not_paren_of_isKeyword hk
  obtain ⟨hd, hrun⟩ := hrun.of_cons left right
  rwa [hd]

/-! ### Joins -/

namespace JoinLink

/-- A member of a chain without what is nested deeper. -/
def outline (depth : Nat) (link : JoinLink) : JoinLink :=
  ⟨link.join, Token.outline depth link.operand⟩

end JoinLink

namespace JoinChain

open Token (outline Level)

/-- A chain without what is nested deeper. -/
def outline (depth : Nat) (chain : JoinChain) : JoinChain :=
  ⟨Token.outline depth chain.head, chain.links.map (JoinLink.outline depth)⟩

theorem cut_outline (depth : Nat) (ts : List Token) : cut depth (Token.outline depth ts)
    = (Token.outline depth (cut depth ts).1, (cut depth ts).2.map (JoinLink.outline depth)) := by
  induction ts with
  | nil => rfl
  | cons t ts ih =>
    by_cases ht : t.depth ≤ depth
    · rw [Token.outline_cons_of_le ht, cut, cut, ih]
      simp only
      split
      · rfl
      · rw [Token.outline_cons_of_le ht]
    · have hnot : ¬ t.isKeywordAt depth .JOIN = true :=
        fun h => ht (Nat.le_of_eq (Token.depth_of_isKeywordAt h))
      rw [Token.outline_cons_of_lt (by omega), ih, cut]
      simp only
      rw [if_neg hnot, Token.outline_cons_of_lt (by omega)]

/-- The parts of a level block are level. -/
theorem level_cut (h : Level depth ts) :
    Level depth (cut depth ts).1 ∧ ∀ link ∈ (cut depth ts).2, Level depth link.operand := by
  have hparts : ∀ {part : List Token} {links : List JoinLink}, (∀ l ∈ links, l.join.isKeywordAt depth .JOIN = true) →
      Level depth (part ++ links.flatMap fun l => l.join :: l.operand) →
      Level depth part ∧ ∀ link ∈ links, Level depth link.operand := by
    intro part links hjoins h
    induction links generalizing part with
    | nil =>
      rw [List.flatMap_nil, List.append_nil] at h
      exact ⟨h, nofun⟩
    | cons link links ih =>
      obtain ⟨hjoin, hjoins⟩ := List.forall_mem_cons.1 hjoins
      obtain ⟨left, right⟩ := Token.not_paren_of_isKeywordAt hjoin
      rw [List.flatMap_cons, List.cons_append] at h
      obtain ⟨hpart, hrest⟩ := h.split (Token.depth_of_isKeywordAt hjoin) left right
      exact ⟨hpart, List.forall_mem_cons.2 (ih hjoins hrest)⟩
  refine hparts (isKeywordAt_of_mem_cut depth ts) ?_
  rwa [← eq_of_cut]

theorem not_paren_of_keyword? {k : Keyword} (h : t.kind.keyword? = some k) :
    t.isSymbol .leftParen = false ∧ t.isSymbol .rightParen = false := by
  refine Token.not_paren_of_isKeyword (k := k) ?_
  simp [Token.isKeyword, Kind.isKeyword, kind_of_keyword? h]

/-- The words of an operator stand at the depth of the block. -/
theorem dropOperator_outline {part : List Token} (h : Level depth part) :
    dropOperator (Token.outline depth part) = (dropOperator part).map (Token.outline depth) ∧
      ∀ rest, dropOperator part = .ok rest → Level depth rest := by
  rcases List.eq_nil_or_concat part with rfl | ⟨before, last, rfl⟩
  · refine ⟨rfl, fun rest hrest => ?_⟩
    cases hrest
    exact .nil
  rw [List.concat_eq_append] at h ⊢
  have hbefore : ∀ {k : Keyword}, last.kind.keyword? = some k → Level depth before := fun hk =>
    h.of_concat (not_paren_of_keyword? hk).1 (not_paren_of_keyword? hk).2
  rw [h.outline_concat]
  unfold dropOperator
  simp only [List.reverse_append, List.reverse_singleton, List.singleton_append]
  split
  case h_6 hk =>
    rcases List.eq_nil_or_concat before with rfl | ⟨more, side, rfl⟩
    · exact ⟨rfl, fun _ h => by cases h⟩
    rw [List.concat_eq_append] at hbefore ⊢
    have hlevel := hbefore hk
    rw [hlevel.outline_concat]
    simp only [List.reverse_append, List.reverse_singleton, List.singleton_append, List.reverse_reverse]
    have hmore : ∀ {k : Keyword}, side.kind.keyword? = some k → Level depth more := fun hk' =>
      hlevel.of_concat (not_paren_of_keyword? hk').1 (not_paren_of_keyword? hk').2
    split
    · exact ⟨rfl, fun _ h => by cases h⟩
    · exact ⟨rfl, fun _ h => by cases h⟩
    · next hk' =>
      refine ⟨rfl, fun rest hrest => ?_⟩
      cases hrest
      exact hmore hk'
    · next hk' =>
      refine ⟨rfl, fun rest hrest => ?_⟩
      cases hrest
      exact hmore hk'
    · exact ⟨rfl, fun _ h => by cases h⟩
  case h_7 =>
    refine ⟨by rw [Except.map, h.outline_concat], fun rest hrest => ?_⟩
    cases hrest
    exact h
  case h_1 => exact ⟨rfl, fun _ h => by cases h⟩
  case h_2 => exact ⟨rfl, fun _ h => by cases h⟩
  all_goals
    next hk =>
    simp only [List.reverse_reverse]
    refine ⟨rfl, fun rest hrest => ?_⟩
    cases hrest
    exact hbefore hk

theorem dropOperators_outline {link : JoinLink} {others : List JoinLink} (hlink : Level depth link.operand)
    (hothers : ∀ l ∈ others, Level depth l.operand) :
    dropOperators (link.outline depth) (others.map (JoinLink.outline depth))
        = (dropOperators link others).map (List.map (JoinLink.outline depth)) ∧
      ∀ links, dropOperators link others = .ok links → ∀ l ∈ links, Level depth l.operand := by
  induction others generalizing link with
  | nil =>
    refine ⟨rfl, fun links hlinks => ?_⟩
    cases hlinks
    exact List.forall_mem_singleton.2 hlink
  | cons next others ih =>
    obtain ⟨hnext, hothers⟩ := List.forall_mem_cons.1 hothers
    obtain ⟨hdrop, hlevel⟩ := dropOperator_outline hlink
    obtain ⟨hrest, hlevels⟩ := ih hnext hothers
    rw [List.map_cons, dropOperators, dropOperators, hrest]
    change (dropOperator (Token.outline depth link.operand) >>= _) = _ ∧ _
    rw [hdrop]
    cases hoperand : dropOperator link.operand with
    | error e => exact ⟨rfl, fun _ h => by cases h⟩
    | ok operand =>
      cases hlinks : dropOperators next others with
      | error e => exact ⟨rfl, fun _ h => by cases h⟩
      | ok links =>
        refine ⟨rfl, fun links' hlinks' => ?_⟩
        cases hlinks'
        exact List.forall_mem_cons.2 ⟨hlevel operand hoperand, hlevels links hlinks⟩

theorem checkLink_outline {link : JoinLink} (h : Level depth link.operand) :
    checkLink depth (link.outline depth) = checkLink depth link := by
  unfold checkLink JoinLink.outline
  simp only [h.outline_eq_nil_iff, h.head?_outline]
  rw [Token.splitFirst_outline fun t ht => Nat.le_of_eq (Token.depth_of_isKeywordAt ht)]
  split
  · rfl
  · cases hon : Token.splitFirst (Token.isKeywordAt depth .ON) link.operand with
    | none => rfl
    | some found =>
      obtain ⟨table, on, condition⟩ := found
      obtain ⟨hoperand, hkeyword, -⟩ := Token.splitFirst_eq_some hon
      obtain ⟨left, right⟩ := Token.not_paren_of_isKeywordAt hkeyword
      rw [hoperand] at h
      have hcondition := (h.split (Token.depth_of_isKeywordAt hkeyword) left right).2
      cases condition with
      | nil => rfl
      | cons t ts =>
        simp only [Option.map_some, hcondition.outline_cons]

/-- A level block and its outline are taken apart alike. -/
theorem ofBlock_outline (h : Level depth ts) :
    ofBlock depth (Token.outline depth ts) = (ofBlock depth ts).map (outline depth) ∧
      ∀ chain, ofBlock depth ts = .ok chain → ∀ l ∈ chain.links, Level depth l.operand := by
  obtain ⟨hpart, hlinks⟩ := level_cut h
  unfold ofBlock
  rw [cut_outline]
  generalize cut depth ts = parts at hpart hlinks
  obtain ⟨part, links⟩ := parts
  cases links with
  | nil =>
    refine ⟨rfl, fun chain hchain => ?_⟩
    cases hchain
    exact nofun
  | cons first others =>
    obtain ⟨hfirst, hothers⟩ := List.forall_mem_cons.1 hlinks
    obtain ⟨hdrop, hlevel⟩ := dropOperator_outline hpart
    obtain ⟨hrest, hlevels⟩ := dropOperators_outline hfirst hothers
    simp only [List.map_cons]
    rw [hdrop]
    cases hhead : dropOperator part with
    | error e => exact ⟨rfl, nofun⟩
    | ok head =>
      change (if Token.outline depth head = [] then _ else _) = Except.map _ (if head = [] then _ else _) ∧
        ∀ chain, (if head = [] then _ else _) = _ → _
      by_cases hnil : head = []
      · rw [if_pos ((hlevel head hhead).outline_eq_nil_iff.2 hnil), if_pos hnil]
        exact ⟨rfl, nofun⟩
      rw [if_neg (mt (hlevel head hhead).outline_eq_nil_iff.1 hnil), if_neg hnil, hrest]
      cases hls : dropOperators first others with
      | error e => exact ⟨rfl, nofun⟩
      | ok links =>
        have hchecks : ∀ {ls : List JoinLink}, (∀ l ∈ ls, Level depth l.operand) →
            (ls.map (JoinLink.outline depth)).forM (checkLink depth) = ls.forM (checkLink depth) := by
          intro ls hls
          induction ls with
          | nil => rfl
          | cons l ls ih =>
            obtain ⟨hl, hls⟩ := List.forall_mem_cons.1 hls
            change (checkLink depth (l.outline depth) >>= fun _ => _) = (checkLink depth l >>= fun _ => _)
            rw [checkLink_outline hl, ih hls]
        change ((links.map (JoinLink.outline depth)).forM (checkLink depth) >>= fun _ => _) =
          Except.map _ (links.forM (checkLink depth) >>= fun _ => _) ∧
          ∀ chain, (links.forM (checkLink depth) >>= fun _ => _) = _ → _
        rw [hchecks (hlevels links hls)]
        cases links.forM (checkLink depth) with
        | error e => exact ⟨rfl, nofun⟩
        | ok _ =>
          refine ⟨rfl, fun chain hchain => ?_⟩
          cases hchain
          exact hlevels links hls

theorem blockEdits_outline {wrapped : Bool} {index : Nat} {chain : JoinChain} (h : Level depth ts)
    (hlinks : ∀ l ∈ chain.links, Level depth l.operand) :
    blockEdits wrapped index (Token.outline depth ts) (chain.outline depth) = blockEdits wrapped index ts chain := by
  have hclosings : (chain.links.map (JoinLink.outline depth)).dropLast.map
        (fun link => Edit.insert (Token.stopOr 0 link.operand) [')'])
      = chain.links.dropLast.map fun link => Edit.insert (Token.stopOr 0 link.operand) [')'] := by
    rw [← List.map_dropLast, List.map_map]
    refine List.map_congr_left fun l hl => ?_
    show Edit.insert (Token.stopOr 0 (Token.outline depth l.operand)) _ = _
    rw [(hlinks l (List.dropLast_subset _ hl)).stopOr_outline]
  unfold blockEdits outline
  simp only [List.map_eq_nil_iff, List.length_map, h.startOr_outline, h.stopOr_outline, hclosings]

theorem blocksEdits_outline {wrapped : Bool} {index : Nat} {blocks : List Token.Piece}
    (h : ∀ b ∈ blocks, Level depth b.tokens) :
    blocksEdits depth wrapped index (blocks.map (Token.Piece.outline depth))
      = blocksEdits depth wrapped index blocks := by
  induction blocks generalizing index with
  | nil => rfl
  | cons b blocks ih =>
    obtain ⟨hb, hblocks⟩ := List.forall_mem_cons.1 h
    obtain ⟨hchain, hlinks⟩ := ofBlock_outline hb
    rw [List.map_cons, blocksEdits, blocksEdits]
    simp only [Token.Piece.outline, hb.outline_eq_nil_iff, ih hblocks]
    split
    · rfl
    rw [hchain]
    cases hc : ofBlock depth b.tokens with
    | error e => rfl
    | ok chain =>
      change (blocksEdits depth wrapped (index + 1) blocks >>= fun es => Except.ok (_ ++ es)) = _
      rw [blockEdits_outline hb (hlinks chain hc)]
      rfl

/-- **Outlines of clauses.**  What is nested deeper does not matter for the joins of a level clause. -/
theorem clauseEdits_outline (stop : Nat) (h : Level depth ts) :
    clauseEdits depth stop (Token.outline depth ts) = clauseEdits depth stop ts := by
  unfold clauseEdits
  simp only [Token.pieces_outline, List.length_map]
  exact blocksEdits_outline h.pieces

end JoinChain

/-! ### Clauses and scopes -/

open Token (outline Level Run)

namespace Clause

variable {stop : Nat} {c : Clause}

/-- A clause without what is nested deeper. -/
def outline (depth : Nat) (c : Clause) : Clause :=
  ⟨c.kind, c.words, Token.outline depth c.body, c.stop⟩

theorem not_paren_of_opened? (h : (opened? t ts).isSome = true) :
    t.isSymbol .leftParen = false ∧ t.isSymbol .rightParen = false := by
  obtain ⟨k, hk⟩ := exists_isKeyword_of_opened? h
  exact Token.not_paren_of_isKeyword hk

/-- A token and the next one in the outline open what it opens with the token behind it. -/
theorem opened?_outline (h : Run e (t :: ts) depth) (ht : t.depth = depth) (hle : ∀ t ∈ ts, depth ≤ t.depth) :
    opened? t (Token.outline depth ts) = opened? t ts ∧ ((opened? t ts).isSome = true → Level depth ts) := by
  have hlevel : ∀ us, (opened? t us).isSome = true → Level depth ts := by
    intro us hopen
    obtain ⟨left, right⟩ := not_paren_of_opened? hopen
    obtain ⟨rfl, hrun⟩ := h.of_cons left right
    rw [ht] at hrun
    exact ⟨hrun, hle⟩
  refine ⟨?_, hlevel ts⟩
  have hsame : Level depth ts → opened? t (Token.outline depth ts) = opened? t ts := by
    intro hts
    unfold opened?
    rw [hts.head?_outline]
  cases hopen : opened? t ts with
  | some opened => rw [hsame (hlevel ts (by rw [hopen]; rfl)), hopen]
  | none =>
    cases hopen' : opened? t (Token.outline depth ts) with
    | none => rfl
    | some opened => rw [← hopen', hsame (hlevel _ (by rw [hopen']; rfl)), hopen]

theorem take_drop_outline {kind : ClauseKind} {more : Nat} (stop : Nat) (h : Level depth ts)
    (hopen : opened? t ts = some (kind, more)) :
    (Token.outline depth (cut depth stop ts).1).take more = (cut depth stop ts).1.take more ∧
      (Token.outline depth (cut depth stop ts).1).drop more
        = Token.outline depth ((cut depth stop ts).1.drop more) := by
  have hcases : more = 0 ∨ more = 1 ∧ ∃ b us, ts = b :: us ∧ b.isKeyword .BY = true := by
    have hby : (ts.head?.any fun u => u.isKeyword .BY) = true → ∃ b us, ts = b :: us ∧ b.isKeyword .BY = true := by
      intro hb
      cases ts with
      | nil => cases hb
      | cons b us => exact ⟨b, us, rfl, by simpa using hb⟩
    unfold opened? at hopen
    simp only at hopen
    split at hopen
    · cases hopen
      exact .inl rfl
    · cases hopen
      exact .inl rfl
    · cases hopen
      exact .inl rfl
    · split at hopen
      · next hb =>
        cases hopen
        exact .inr ⟨rfl, hby hb⟩
      · cases hopen
    · split at hopen
      · next hb =>
        cases hopen
        exact .inr ⟨rfl, hby hb⟩
      · cases hopen
    · cases hopen
  rcases hcases with rfl | ⟨rfl, b, us, rfl, hb⟩
  · exact ⟨rfl, rfl⟩
  · rw [cut_fst_by hb, Token.outline_cons_of_le (Nat.le_of_eq h.depth_first)]
    exact ⟨rfl, rfl⟩

/-- A level stretch and its outline are cut into the same clauses. -/
theorem cut_outline (h : Run e ts depth) (hle : ∀ t ∈ ts, depth ≤ t.depth) :
    cut depth stop (Token.outline depth ts)
      = (Token.outline depth (cut depth stop ts).1, (cut depth stop ts).2.map (outline depth)) := by
  induction ts generalizing e with
  | nil => rfl
  | cons t ts ih =>
    obtain ⟨ht, hle⟩ := List.forall_mem_cons.1 hle
    obtain ⟨e', hrest⟩ : ∃ e', Run e' ts depth := by
      cases h with
      | opening _ _ rest => exact ⟨_, rest⟩
      | closing _ _ rest => exact ⟨_, rest⟩
      | plain _ _ _ rest => exact ⟨_, rest⟩
    by_cases hd : t.depth = depth
    · rw [Token.outline_cons_of_le (Nat.le_of_eq hd), cut, cut, ih hrest hle, if_pos hd, if_pos hd]
      obtain ⟨hsame, hlevel⟩ := opened?_outline h hd hle
      simp only [hsame]
      cases hopen : opened? t ts with
      | none => simp only [Token.outline_cons_of_le (Nat.le_of_eq hd)]
      | some opened =>
        obtain ⟨htake, hdrop⟩ := take_drop_outline stop (hlevel (by rw [hopen]; rfl)) hopen
        simp only [htake, hdrop, List.map_cons, outline]
        cases (cut depth stop ts).2 with
        | nil => rfl
        | cons c cs => rfl
    · rw [Token.outline_cons_of_lt (by omega), ih hrest hle, cut]
      simp only [if_neg hd]
      rw [Token.outline_cons_of_lt (by omega)]

/-- The clauses of a level stretch are level. -/
theorem level_of_mem_cut (h : Level depth ts) (hc : c ∈ (cut depth stop ts).2) : Level depth c.body := by
  obtain ⟨as, bs, hts, hwords, hbs⟩ := mem_cut hc
  rw [hts, ← List.append_assoc] at h
  generalize (cut depth stop ts).1 ++ as = front at h
  have hword : ∀ {w : Token} {k : Keyword} {front rest : List Token}, w.isKeyword k = true → w.depth = depth →
      Level depth (front ++ w :: rest) → Level depth rest := by
    intro w k front rest hk hd hlevel
    obtain ⟨left, right⟩ := Token.not_paren_of_isKeyword hk
    exact (hlevel.split hd left right).2
  have hrest : Level depth (c.body ++ bs) := by
    generalize c.words = words at h hwords
    generalize c.kind = kind at hwords
    cases hwords with
    | tables word at_ | filter word at_ | groupFilter word at_ => exact hword word at_ h
    | groups word by_ at_ | ordering word by_ at_ =>
      obtain ⟨left, right⟩ := Token.not_paren_of_isKeyword by_
      exact (hword word at_ h).tail left right
  rcases hbs with rfl | ⟨b, us, rfl, hd, hopen⟩
  · rwa [List.append_nil] at hrest
  · obtain ⟨left, right⟩ := not_paren_of_opened? hopen
    exact (hrest.split hd left right).1

end Clause

namespace Scope

variable {stop : Nat} {select : Token} {after : List Token} {kind : ClauseKind} {c : Clause}

theorem takeWhile_reaches_outline (depth : Nat) (ts : List Token) :
    (Token.outline depth ts).takeWhile (reaches depth) = Token.outline depth (ts.takeWhile (reaches depth)) ∧
      (Token.outline depth ts).dropWhile (reaches depth) = Token.outline depth (ts.dropWhile (reaches depth)) := by
  induction ts with
  | nil => exact ⟨rfl, rfl⟩
  | cons t ts ih =>
    by_cases ht : t.depth ≤ depth
    · rw [Token.outline_cons_of_le ht]
      by_cases hreach : reaches depth t = true
      · rw [List.takeWhile_cons_of_pos hreach, List.takeWhile_cons_of_pos hreach, List.dropWhile_cons_of_pos hreach,
          List.dropWhile_cons_of_pos hreach, Token.outline_cons_of_le ht, ih.1, ih.2]
        exact ⟨rfl, rfl⟩
      · rw [List.takeWhile_cons_of_neg hreach, List.takeWhile_cons_of_neg hreach, List.dropWhile_cons_of_neg hreach,
          List.dropWhile_cons_of_neg hreach, Token.outline_cons_of_le ht]
        exact ⟨rfl, rfl⟩
    · have hreach : reaches depth t = true := by
        have hlt : depth < t.depth := Nat.lt_of_not_le ht
        simp [reaches, Nat.le_of_lt hlt, Nat.ne_of_gt hlt]
      rw [Token.outline_cons_of_lt (Nat.lt_of_not_le ht), List.takeWhile_cons_of_pos hreach,
        List.dropWhile_cons_of_pos hreach, Token.outline_cons_of_lt (Nat.lt_of_not_le ht)]
      exact ih

/-- What ends a scope is found in the outline. -/
theorem startOr_dropWhile_outline (depth stop : Nat) (ts : List Token) :
    Token.startOr stop (Token.outline depth (ts.dropWhile (reaches depth)))
      = Token.startOr stop (ts.dropWhile (reaches depth)) := by
  have hcloses : Token.Closes depth (ts.dropWhile (reaches depth)) := Query.IsRead.closes_of_dropWhile
  cases hrest : ts.dropWhile (reaches depth) with
  | nil => rfl
  | cons v rest =>
    rw [hrest] at hcloses
    rw [Token.outline_cons_of_le (hcloses v rfl).1]
    rfl

/-- The body of a scope is level where all parentheses are closed in the end. -/
theorem level_takeWhile (h : Run depth after 0) : Level depth (after.takeWhile (reaches depth)) := by
  have hle : ∀ t ∈ after.takeWhile (reaches depth), depth ≤ t.depth := by
    intro t ht
    have hreach := List.all_eq_true.1 List.all_takeWhile t ht
    rw [reaches, Bool.and_eq_true, decide_eq_true_eq] at hreach
    exact hreach.1
  have hcloses : Token.Closes depth (after.dropWhile (reaches depth)) := Query.IsRead.closes_of_dropWhile
  rw [← List.takeWhile_append_dropWhile (p := reaches depth) (l := after)] at h
  obtain ⟨e, hbody, hrest⟩ := h.of_append
  have hge := hbody.le (Nat.le_refl _) hle
  obtain rfl : e = depth := by
    refine Nat.le_antisymm ?_ hge
    cases hrest' : after.dropWhile (reaches depth) with
    | nil =>
      rw [hrest'] at hrest
      cases hrest
      exact Nat.zero_le _
    | cons v rest =>
      rw [hrest'] at hrest hcloses
      obtain ⟨hv, hright⟩ := hcloses v rfl
      cases hrest with
      | opening _ hdepth => omega
      | closing paren hdepth =>
        have := hright paren
        omega
      | plain _ _ hdepth => omega
  exact ⟨hbody, hle⟩

/-- **Outlines of scopes.**  The clauses of a scope have the outlines that they have in the outline of what stands
behind its `SELECT`. -/
theorem clause?_outline (h : Run select.depth after 0) :
    (ofSelect stop select (Token.outline select.depth after)).clause? kind
      = ((ofSelect stop select after).clause? kind).map (Clause.outline select.depth) := by
  obtain ⟨htake, hdrop⟩ := takeWhile_reaches_outline select.depth after
  have hlevel := level_takeWhile h
  have hclauses : (ofSelect stop select (Token.outline select.depth after)).clauses
      = (ofSelect stop select after).clauses.map (Clause.outline select.depth) := by
    show (Clause.cut _ _ _).2 = (Clause.cut _ _ _).2.map _
    rw [htake, hdrop, startOr_dropWhile_outline, Clause.cut_outline hlevel.run hlevel.le]
  rw [clause?, hclauses, ← List.map_reverse, List.find?_map]
  rfl

theorem level_of_clause? (h : Run select.depth after 0) (hc : (ofSelect stop select after).clause? kind = some c) :
    Level select.depth c.body := by
  have hmem : c ∈ (ofSelect stop select after).clauses := by simpa using List.mem_of_find?_eq_some hc
  exact Clause.level_of_mem_cut (level_takeWhile h) hmem

end Scope

end JetAdapter
