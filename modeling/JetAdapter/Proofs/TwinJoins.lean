import JetAdapter.Proofs.Levels
import JetAdapter.Proofs.Neat

/-!
# Twin joins

Joins are found at the same tokens of twins, and refused for the same reasons.  So the same texts are inserted, each
before the same token or behind the same one (`Edit.Relaid`), and nothing that is inserted runs into what stands
around it.
-/

namespace JetAdapter

open Cell (Leads IsSpaced Neat)
open Token (stretch row)

variable {free : Bool} {l : Layout}

/-! ### Chains -/

/-- A member of a chain with a new layout. -/
def JoinLink.relaid (l : Layout) (link : JoinLink) : JoinLink :=
  ⟨link.join.relaid l, link.operand.map (Token.relaid l)⟩

namespace JoinChain

/-- A chain with a new layout. -/
def relaid (l : Layout) (chain : JoinChain) : JoinChain :=
  ⟨chain.head.map (Token.relaid l), chain.links.map (JoinLink.relaid l)⟩

theorem cut_relaid (depth : Nat) (ts : List Token) :
    cut depth (ts.map (Token.relaid l))
      = ((cut depth ts).1.map (Token.relaid l), (cut depth ts).2.map (JoinLink.relaid l)) := by
  induction ts with
  | nil => rfl
  | cons t ts ih =>
    rw [List.map_cons, cut, cut, ih, Token.relaid_isKeywordAt]
    simp only
    split
    · rfl
    · rfl

theorem dropOperator_relaid (part : List Token) :
    Except.Alike (fun rest rest' => rest' = rest.map (Token.relaid l)) (dropOperator part)
      (dropOperator (part.map (Token.relaid l))) := by
  unfold dropOperator
  rw [← List.map_reverse]
  cases part.reverse with
  | nil => exact .ok rfl
  | cons last before =>
    simp only [List.map_cons, Token.relaid_kind]
    split
    · exact .error rfl
    · exact .error rfl
    · exact .ok (List.map_reverse ..).symm
    · exact .ok (List.map_reverse ..).symm
    · exact .ok (List.map_reverse ..).symm
    · cases before with
      | nil => exact .error rfl
      | cons side more =>
        simp only [List.map_cons, Token.relaid_kind]
        split
        · exact .error rfl
        · exact .error rfl
        · exact .ok (List.map_reverse ..).symm
        · exact .ok (List.map_reverse ..).symm
        · exact .error rfl
    · exact .ok rfl

theorem dropOperators_relaid (link : JoinLink) (others : List JoinLink) :
    Except.Alike (fun links links' => links' = links.map (JoinLink.relaid l)) (dropOperators link others)
      (dropOperators (link.relaid l) (others.map (JoinLink.relaid l))) := by
  induction others generalizing link with
  | nil => exact .ok rfl
  | cons next others ih =>
    rw [List.map_cons, dropOperators, dropOperators]
    refine (dropOperator_relaid link.operand).bind ?_
    rintro operand _ rfl
    refine (ih next).bind ?_
    rintro links _ rfl
    exact .ok rfl

theorem checkLink_relaid (depth : Nat) (link : JoinLink) :
    Except.Alike (fun _ _ => True) (checkLink depth link) (checkLink depth (link.relaid l)) := by
  have hhead : (link.operand.map (Token.relaid l)).head?.any (fun t => t.isKeyword .ON)
      = link.operand.head?.any fun t => t.isKeyword .ON := by
    cases link.operand with
    | nil => rfl
    | cons t ts => rfl
  have hon := Token.splitFirst_relaid (l := l) (p := Token.isKeywordAt depth .ON) (fun _ => rfl) link.operand
  unfold checkLink JoinLink.relaid
  simp only [List.map_eq_nil_iff, hhead, hon]
  split
  · exact .error rfl
  · cases Token.splitFirst (Token.isKeywordAt depth .ON) link.operand with
    | none => exact .error rfl
    | some found =>
      obtain ⟨table, on, condition⟩ := found
      cases condition with
      | nil => exact .error rfl
      | cons t ts => exact .ok trivial

theorem ofBlock_relaid (depth : Nat) (block : List Token) :
    Except.Alike (fun chain chain' => chain' = chain.relaid l) (ofBlock depth block)
      (ofBlock depth (block.map (Token.relaid l))) := by
  unfold ofBlock
  rw [cut_relaid]
  generalize cut depth block = parts
  obtain ⟨part, links⟩ := parts
  cases links with
  | nil => exact .ok rfl
  | cons first others =>
    refine (dropOperator_relaid part).bind ?_
    rintro head _ rfl
    simp only [List.map_eq_nil_iff]
    split
    · exact .error rfl
    · refine (dropOperators_relaid first others).bind ?_
      rintro links _ rfl
      have hcheck : Except.Alike (fun _ _ => True) (links.forM (checkLink depth))
          ((links.map (JoinLink.relaid l)).forM (checkLink depth)) := by
        induction links with
        | nil => exact .ok trivial
        | cons link links ih => exact (checkLink_relaid depth link).bind fun _ _ _ => ih
      exact hcheck.bind fun _ _ _ => .ok rfl

end JoinChain

/-! ### Insertions -/

/-- An insertion before or behind one of some tokens, with both layouts. -/
inductive Edit.Relaid (l : Layout) (ts : List Token) : Edit → Edit → Prop
  | before {t : Token} {text : SqlText} (mem : t ∈ ts) (opens : text.head? ≠ some ')') :
      Relaid l ts (.insert t.start text) (.insert (t.relaid l).start text)
  | behind {u : Token} {text : SqlText} (mem : u ∈ ts) (closes : text.head? = some ')') :
      Relaid l ts (.insert u.stop text) (.insert (u.relaid l).stop text)

namespace JoinChain

variable {ts : List Token}

theorem blockEdits_relaid {wrapped : Bool} {index : Nat} {block : List Token} {chain : JoinChain} (hne : block ≠ [])
    (hblock : ∀ t ∈ block, t ∈ ts) (hlinks : ∀ link ∈ chain.links, link.operand ≠ [] ∧ ∀ t ∈ link.operand, t ∈ ts) :
    List.Forall₂ (Edit.Relaid l ts) (blockEdits wrapped index block chain)
      (blockEdits wrapped index (block.map (Token.relaid l)) (chain.relaid l)) := by
  have hstop : ∀ {us : List Token} {text : SqlText}, us ≠ [] → (∀ t ∈ us, t ∈ ts) → text.head? = some ')' →
      Edit.Relaid l ts (.insert (Token.stopOr 0 us) text) (.insert (Token.stopOr 0 (us.map (Token.relaid l))) text) := by
    intro us text hus hmem htext
    obtain ⟨vs, u, rfl⟩ := (List.eq_nil_or_concat us).resolve_left hus
    rw [List.concat_eq_append, List.map_append, List.map_singleton, Token.stopOr_concat, Token.stopOr_concat]
    exact .behind (hmem u (by simp)) htext
  have hstart : ∀ {text : SqlText}, text.head? ≠ some ')' →
      Edit.Relaid l ts (.insert (Token.startOr 0 block) text)
        (.insert (Token.startOr 0 (block.map (Token.relaid l))) text) := by
    intro text htext
    obtain ⟨t, us, rfl⟩ := List.exists_cons_of_ne_nil hne
    exact .before (hblock t List.mem_cons_self) htext
  unfold blockEdits relaid
  simp only [List.map_eq_nil_iff, List.length_map]
  split
  · exact .nil
  · refine List.rel_append (List.rel_append ?_ ?_) ?_
    · split
      · exact .cons (hstart (by simp)) .nil
      · exact .nil
    · split
      · refine .cons (hstart ?_) ?_
        · rw [List.head?_replicate]
          split
          · simp
          · simp
        · rw [← List.map_dropLast, List.forall₂_map_left_iff, List.forall₂_map_right_iff, List.forall₂_map_right_iff,
            List.forall₂_same]
          intro link hlink
          obtain ⟨hoperand, hmem⟩ := hlinks link (List.dropLast_subset _ hlink)
          exact hstop hoperand hmem rfl
      · exact .nil
    · split
      · exact .cons (hstop hne hblock rfl) .nil
      · exact .nil

theorem blocksEdits_relaid {depth : Nat} {wrapped : Bool} {index : Nat} {blocks : List Token.Piece}
    (hblocks : ∀ b ∈ blocks, ∀ t ∈ b.tokens, t ∈ ts) :
    Except.Alike (List.Forall₂ (Edit.Relaid l ts)) (blocksEdits depth wrapped index blocks)
      (blocksEdits depth wrapped index (blocks.map (Token.Piece.relaid l))) := by
  induction blocks generalizing index with
  | nil => exact .ok .nil
  | cons b blocks ih =>
    obtain ⟨hb, hblocks⟩ := List.forall_mem_cons.1 hblocks
    rw [List.map_cons, blocksEdits, blocksEdits]
    simp only [Token.Piece.relaid, List.map_eq_nil_iff]
    split
    · exact .error rfl
    next hne =>
    have hchain := ofBlock_relaid (l := l) depth b.tokens
    generalize hx : ofBlock depth b.tokens = x at hchain
    generalize ofBlock depth (b.tokens.map (Token.relaid l)) = y at hchain
    cases hchain with
    | error outline => exact .error outline
    | @ok chain chain' related =>
      subst related
      refine (ih hblocks).bind fun es es' hes => .ok (List.rel_append (blockEdits_relaid hne hb ?_) hes)
      intro link hlink
      obtain ⟨us, vs, hblock, hoperand, -⟩ := exists_of_link hx hlink
      refine ⟨hoperand, fun t ht => hb t ?_⟩
      rw [hblock]
      simp [ht]

theorem clauseEdits_relaid {depth stop : Nat} {clause : List Token} (h : ∀ t ∈ clause, t ∈ ts) :
    Except.Alike (List.Forall₂ (Edit.Relaid l ts)) (clauseEdits depth stop clause)
      (clauseEdits depth (l.place stop) (clause.map (Token.relaid l))) := by
  unfold clauseEdits
  simp only [Token.pieces_relaid, List.length_map]
  refine blocksEdits_relaid fun b hb t ht => h t ?_
  obtain ⟨us, vs, rfl, -⟩ := Token.mem_pieces hb
  simp [ht]

theorem scopesEdits_relaid {scopes : List Scope}
    (h : ∀ s ∈ scopes, ∀ clause, s.clause? .tables = some clause → ∀ t ∈ clause.body, t ∈ ts) :
    Except.Alike (List.Forall₂ (Edit.Relaid l ts)) (scopesEdits scopes)
      (scopesEdits (scopes.map (Scope.relaid l))) := by
  induction scopes with
  | nil => exact .ok .nil
  | cons s scopes ih =>
    obtain ⟨hs, hscopes⟩ := List.forall_mem_cons.1 h
    rw [List.map_cons, scopesEdits, scopesEdits, Scope.clause?_relaid]
    cases hclause : s.clause? .tables with
    | none => exact (ih hscopes).bind fun es es' hes => .ok hes
    | some clause =>
      exact (clauseEdits_relaid (hs clause hclause)).bind fun es es' hes =>
        (ih hscopes).bind fun fs fs' hfs => .ok (List.rel_append hes hfs)

end JoinChain

/-! ### Places of insertions -/

namespace JoinChain

variable {q q' : Query} {tail tail' : List Cell} {as bs ts : List Token} {t u w : Token} {N : List Cell} {c : Cell}

/-- Whether what is inserted at a gap comes before it. -/
def borders (ts : List Token) : Borders where
  early j := 0 < j ∧ ts[j - 1]?.any (fun u => !u.isKeyword .FROM && !u.isSymbol .comma) = true
  kept _ := False
  origin := id

theorem borders_relaid (ts : List Token) : borders (ts.map (Token.relaid l)) = borders ts := by
  unfold borders
  congr 1
  funext j
  rw [List.getElem?_map]
  cases ts[j - 1]? with
  | none => rfl
  | some t => rfl

theorem early_iff : (borders (as ++ u :: bs)).early (as.length + 1) ↔
    u.isKeyword .FROM = false ∧ u.isSymbol .comma = false := by
  show (0 < as.length + 1 ∧ (as ++ u :: bs)[as.length]?.any _ = true) ↔ _
  rw [List.getElem?_append_right (Nat.le_refl _), Nat.sub_self, List.getElem?_cons_zero, Option.any_some]
  simp

/-- Cells that start with an opening parenthesis before a token. -/
theorem makes_before (h : q.IsRead tail) (hq : q.tokens = as ++ w :: t :: bs)
    (hw : w.isKeyword .FROM = true ∨ w.isSymbol .comma = true) (hwhole : ∀ c ∈ N, c.IsWhole)
    (hspaced : IsSpaced free N) (hfirst : N = [] ∨ ∃ P, N = Cell.sign '(' :: P)
    (hlast : ∀ c ∈ N.getLast?, c = Cell.sign '(' ∨ c = Cell.space) :
    Splice.Makes free (borders q.tokens) (row q.tokens) tail
      ⟨2 * (as.length + 1) + 1, 2 * (as.length + 1) + 1, N⟩ (.insert t.start (Cell.spell N)) := by
  have hq' : q.tokens = (as ++ [w]) ++ t :: bs := by rw [hq]; simp
  have hlength : as.length + 1 = (as ++ [w]).length := by simp
  have hearly : ∀ j, 2 * (as.length + 1) + 1 = 2 * j + 1 → ¬ (borders q.tokens).early j := by
    intro j hj
    obtain rfl : as.length + 1 = j := by omega
    rw [hq, early_iff]
    rintro ⟨hf, hc⟩
    rcases hw with hw | hw
    · rw [hw] at hf
      cases hf
    · rw [hw] at hc
      cases hc
  have hback : Splice.back (row q.tokens) (2 * (as.length + 1) + 1) = t.cell :: Token.cells bs := by
    rw [hlength, hq', Token.back_before]
  refine ⟨⟨Nat.le_refl _, ?_, ?_, hearly, hearly, id⟩, ⟨hwhole, hspaced, fun c hc => ?_, .inl fun c hc => ?_⟩, ?_⟩
  · rw [Token.length_row, hq]
    simp only [List.length_append, List.length_cons]
    omega
  · intro j hj
    simp only at hj
    omega
  · simp only
    rw [hback]
    rcases hlast c hc with rfl | rfl
    · exact Cell.left_leads _ _ _
    · exact Cell.leads_cons.2 rfl
  · simp only at hc ⊢
    rcases hfirst with rfl | ⟨P, rfl⟩
    · exact hc
    · cases c with
      | gap g => exact Cell.leads_cons.2 rfl
      | token k v => exact Cell.leads_sign (.inl rfl) k v _
  · rw [Splice.edit]
    simp only
    rw [hlength, h.place_before hq']
    rfl

/-- Every token may stand before what ends a block or goes on with it. -/
theorem leads_of_goes (h : q.IsRead tail) (hs : IsSpaced free (Token.cells q.tokens ++ tail))
    (hq : q.tokens = as ++ u :: bs) (hinner : u.isSymbol .comma = false ∧ u.isSymbol .leftParen = false)
    (hgoes : ∀ v ∈ bs.head?, v.EndsClause ∨ v.isSymbol .comma = true ∨ v.IsJoinWord)
    (k : Kind) (v : SqlText) : (Cell.token k v).Leads free (Token.cells bs ++ tail) := by
  refine h.leads_any hs (show q.tokens = as ++ ([u] ++ bs) from hq) rfl (fun v hv => ?_) k v
  have hkeyword : ∀ {y : Keyword}, y.startsValue = false → v.isKeyword y = true →
      ¬ u.kind.touches free v.kind = true := by
    intro y hstarts hy
    have hkind : v.kind = .keyword y := Kind.isKeyword_iff.1 hy
    rw [hkind]
    exact Kind.not_touches_keyword hstarts hinner.2 hinner.1
  rcases hgoes v hv with (hr | hr | ⟨y, hmem, hy⟩) | hr | ⟨y, hstarts, hy⟩
  · exact .inl ⟨_, rfl, hr⟩
  · exact .inl ⟨_, rfl, hr⟩
  · refine .inr (hkeyword ?_ hy)
    simp only [List.mem_cons, List.not_mem_nil, or_false] at hmem
    rcases hmem with rfl | rfl | rfl | rfl | rfl | rfl
    all_goals rfl
  · exact .inl ⟨_, rfl, hr⟩
  · exact .inr (hkeyword hstarts hy)

/-- Neat cells that start with a closing parenthesis behind a token. -/
theorem makes_behind (h : q.IsRead tail) (hs : IsSpaced free (Token.cells q.tokens ++ tail))
    (hq : q.tokens = as ++ u :: bs)
    (hinner : u.isKeyword .FROM = false ∧ u.isSymbol .comma = false ∧ u.isSymbol .leftParen = false)
    (hgoes : ∀ v ∈ bs.head?, v.EndsClause ∨ v.isSymbol .comma = true ∨ v.IsJoinWord)
    (hN : Neat free N) (hfirst : ∃ P, N = Cell.sign ')' :: P) :
    Splice.Makes free (borders q.tokens) (row q.tokens) tail ⟨2 * (as.length + 1), 2 * (as.length + 1), N⟩
      (.insert u.stop (Cell.spell N)) := by
  have hq' : q.tokens = (as ++ [u]) ++ bs := by rw [hq]; simp
  have hlength : as.length + 1 = (as ++ [u]).length := by simp
  have hback : Splice.back (row q.tokens) (2 * (as.length + 1)) = Token.cells bs := by
    rw [hlength, hq', Token.back_behind]
  refine ⟨⟨Nat.le_refl _, ?_, ?_, ?_, ?_, id⟩, ⟨hN.whole, hN.spaced, fun c hc => ?_, .inl fun c hc => ?_⟩, ?_⟩
  · rw [Token.length_row, hq]
    simp only [List.length_append, List.length_cons]
    omega
  · intro j hj
    obtain rfl : as.length + 1 = j := by
      simp only at hj
      omega
    rw [hq, early_iff]
    exact ⟨hinner.1, hinner.2.1⟩
  · intro j hj
    simp only at hj
    omega
  · intro j hj
    simp only at hj
    omega
  · simp only
    rw [hback]
    obtain ⟨k, v, hk⟩ := hN.last
    obtain rfl := Option.some.inj (hk.symm.trans hc)
    exact leads_of_goes h hs hq hinner.2 hgoes k v
  · simp only at hc ⊢
    obtain ⟨P, rfl⟩ := hfirst
    cases c with
    | gap g => exact Cell.leads_cons.2 rfl
    | token k v => exact Cell.leads_sign (.inr (.inl rfl)) k v _
  · rw [Splice.edit]
    simp only
    rw [show 2 * (as.length + 1) = 2 * as.length + 2 by omega, h.place_behind hq]
    rfl

theorem neat_aliasCells (index : Nat) : Neat free (aliasCells index) := by
  have has : Neat free [Cell.word "as".toList] :=
    .word (Cell.isWord_of_isAlpha (by decide) (by decide)) (by decide)
  exact (Neat.sign (.inr (.inl rfl))).blank (has.blank (.word (isWord_aliasName index) rfl))

theorem isSpaced_replicate (n : Nat) : IsSpaced free (List.replicate n (Cell.sign '(')) := by
  induction n with
  | zero => exact Cell.isSpaced_nil
  | succ n ih =>
    refine Cell.isSpaced_cons_iff.2 ⟨?_, ih⟩
    cases n with
    | zero => exact Cell.leads_nil
    | succ n => exact Cell.leads_sign (.inl rfl) _ _ _

theorem exists_neat_selectCells (free : Bool) : ∃ N, selectCells = N ++ [Cell.space] ∧ Neat free N := by
  have hselect : Neat free [Cell.word "select".toList] :=
    .word (Cell.isWord_of_isAlpha (by decide) (by decide)) (by decide)
  have hstar : Neat free [Cell.token (.symbol .star) ['*']] := .token ⟨rfl, rfl, '*', [], rfl, rfl⟩
  have hfrom : Neat free [Cell.word "from".toList] :=
    .word (Cell.isWord_of_isAlpha (by decide) (by decide)) (by decide)
  have hall := hselect.blank (hstar.blank hfrom)
  exact ⟨_, rfl, (Neat.sign (.inl rfl)).append (d := Cell.sign '(') hall rfl (Cell.left_leads _ _ _)⟩

/-- The cells of what is inserted before a token. -/
theorem exists_opening (free : Bool) {text : SqlText} (h : text = "(select * from ".toList ∨ ∃ n, text = List.replicate n '(') :
    ∃ N, text = Cell.spell N ∧ (∀ c ∈ N, c.IsWhole) ∧ IsSpaced free N ∧ (N = [] ∨ ∃ P, N = Cell.sign '(' :: P) ∧
      ∀ c ∈ N.getLast?, c = Cell.sign '(' ∨ c = Cell.space := by
  rcases h with rfl | ⟨n, rfl⟩
  · obtain ⟨N, heq, hN⟩ := exists_neat_selectCells free
    refine ⟨selectCells, rfl, ?_, ?_, .inr ⟨_, rfl⟩, fun c hc => ?_⟩
    · rw [heq]
      exact List.forall_mem_append.2 ⟨hN.whole, List.forall_mem_singleton.2 Cell.isWhole_space⟩
    · rw [heq]
      exact hN.isSpaced_space
    · cases hc
      exact .inr rfl
  · have hwhole : (Cell.sign '(').IsWhole := (Neat.sign (.inl rfl) : Neat free _).whole _ List.mem_cons_self
    refine ⟨List.replicate n (Cell.sign '('), (spell_replicate_sign n).symm, fun c hc => ?_, isSpaced_replicate n, ?_,
      fun c hc => ?_⟩
    · rwa [List.eq_of_mem_replicate hc]
    · cases n with
      | zero => exact .inl rfl
      | succ n => exact .inr ⟨_, rfl⟩
    · exact .inl (List.eq_of_mem_replicate (List.mem_of_getLast? hc))

theorem exists_closing (free : Bool) {text : SqlText} (h : text = [')'] ∨ ∃ index, text = ") as alias".toList ++ Decimal.natText index) :
    ∃ P, text = Cell.spell (Cell.sign ')' :: P) ∧ Neat free (Cell.sign ')' :: P) := by
  rcases h with rfl | ⟨index, rfl⟩
  · exact ⟨[], rfl, .sign (.inr (.inl rfl))⟩
  · exact ⟨_, by simp [aliasName], neat_aliasCells index⟩

/-- An insertion and the one that it is with another layout. -/
theorem edit_twins {e e' : Edit} {depth : Nat} (h : q.Twins free l tail tail' q') (he : Inserts q depth e)
    (hrelaid : Edit.Relaid l q.tokens e e') :
    Splice.EditsAlike free (borders q.tokens) (row q.tokens) tail (row q'.tokens) tail' e e' := by
  have hborders : borders q'.tokens = borders q.tokens := by rw [h.relaid.tokens, borders_relaid]
  have hinsert : ∀ {a b : Nat} {v w : SqlText}, Edit.insert a v = .insert b w → a = b ∧ v = w := by
    rintro a b v w heq
    obtain ⟨hspan, htext⟩ := Edit.mk.inj heq
    exact ⟨(Span.mk.inj hspan).1, htext⟩
  cases he with
  | @before as bs w t text tokens opens prior level written =>
    obtain ⟨N, rfl, hwhole, hspaced, hfirst, hlast⟩ := exists_opening free written
    generalize hplace : Edit.insert t.start (Cell.spell N) = e at hrelaid
    cases hrelaid with
    | @behind u text mem closes =>
      obtain ⟨-, rfl⟩ := hinsert hplace
      rcases hfirst with rfl | ⟨P, rfl⟩
      · cases closes
      · exact absurd closes (by simp)
    | @before t' text mem not_closes =>
      obtain ⟨hstart, rfl⟩ := hinsert hplace
      have hmakes := makes_before h.read tokens opens hwhole hspaced hfirst hlast
      have tokens' : q'.tokens = as.map (Token.relaid l) ++ w.relaid l :: t.relaid l :: bs.map (Token.relaid l) := by
        rw [h.relaid.tokens, tokens]
        simp
      have hmakes' := makes_before h.read' tokens' opens hwhole hspaced hfirst hlast
      rw [hborders, List.length_map, Token.relaid_start, hstart] at hmakes'
      rw [← hplace]
      exact ⟨_, _, ⟨rfl, rfl, rfl⟩, hmakes, hmakes'⟩
  | @behind as bs u text tokens level closes inner goes written =>
    obtain ⟨P, rfl, hN⟩ := exists_closing free written
    generalize hplace : Edit.insert u.stop (Cell.spell (Cell.sign ')' :: P)) = e at hrelaid
    cases hrelaid with
    | @before t text mem not_closes =>
      obtain ⟨-, rfl⟩ := hinsert hplace
      exact absurd rfl not_closes
    | @behind u' text mem closes' =>
      obtain ⟨hstop, rfl⟩ := hinsert hplace
      obtain rfl := h.read.eq_of_stop (by rw [tokens]; simp) mem hstop
      have hmakes := makes_behind h.read h.spaced tokens inner goes hN ⟨P, rfl⟩
      have tokens' : q'.tokens = as.map (Token.relaid l) ++ u.relaid l :: bs.map (Token.relaid l) := by
        rw [h.relaid.tokens, tokens]
        simp
      have hmakes' := makes_behind h.read' h.spaced' tokens' inner (fun v hv => ?_) hN ⟨P, rfl⟩
      · rw [hborders, List.length_map] at hmakes'
        rw [← hplace]
        exact ⟨_, _, ⟨rfl, rfl, rfl⟩, hmakes, hmakes'⟩
      · rw [List.head?_map] at hv
        obtain ⟨x, hx, rfl⟩ := Option.map_eq_some_iff.1 hv
        exact goes x hx

/-- Nesting joins makes twins of twins. -/
theorem twins {s s' : SqlText} (h : Text.Twins free s s') :
    Except.Alike (Text.Twins free) (nestAll s) (nestAll s') := by
  refine h.ofText.bind ?_
  rintro q q' ⟨⟨l, tail, tail', hq⟩, hs, hs'⟩
  have hunion : q'.tokens.any (fun t => t.isKeyword .UNION) = q.tokens.any fun t => t.isKeyword .UNION := by
    rw [hq.relaid.tokens, List.any_map]
    rfl
  rw [hunion]
  split
  · exact .ok h
  · have hscopes : ∀ s ∈ q.scopes, ∀ clause, s.clause? .tables = some clause → ∀ t ∈ clause.body, t ∈ q.tokens := by
      intro s hs clause hclause t ht
      obtain ⟨as, bs, htokens, -⟩ := hq.read.clause hs (by simpa using List.mem_of_find?_eq_some hclause)
      rw [htokens]
      simp [ht]
    have hedits := scopesEdits_relaid (l := l) hscopes
    rw [← hq.relaid.scopes] at hedits
    rw [← (Query.isRead hs).1, ← (Query.isRead hs').1]
    generalize hx : scopesEdits q.scopes = x at hedits
    generalize scopesEdits q'.scopes = y at hedits
    cases hedits with
    | error outline => exact .error outline
    | @ok es es' related =>
      have hall := (List.forall₂_and_left es es').2 ⟨fun e he => exists_inserts hq.read hx he, related⟩
      refine hq.applyAll ⟨borders q.tokens, hall.imp ?_⟩
      rintro e e' ⟨⟨depth, hinserts⟩, hrelaid⟩
      exact edit_twins hq hinserts hrelaid

end JoinChain

end JetAdapter
