import JetAdapter.Proofs.JoinNesting
import JetAdapter.Proofs.Readings

/-!
# Nesting what is nested

A clause whose joins were nested is read again as a clause: every block has one join at most, since those before the last
one went into parentheses, and none where there are several blocks, since a block with a join became a table
(`FromClause.exists_nested`).  So there is nothing left to nest (`JoinChain.nestClause_again`).

Whether tokens make a block depends on their kinds and depths only, so what is known of the blocks of the clause is carried
over to the new ones by the kinds of the new tokens (`JoinTree.exists_alike`).
-/

namespace JetAdapter

open Token (Level Run)

variable {depth index : Nat} {isWrapped : Bool}

/-! ### Tokens that play the same part -/

namespace Token

variable {ts us : List Token} {t u : Token} {d e e' : Nat}

/-- What a token stands for, and its depth. -/
def role (t : Token) : Kind × Nat :=
  (t.kind, t.depth)

theorem isKeywordAt_of_role (h : u.role = t.role) (k : Keyword) : u.isKeywordAt depth k = t.isKeywordAt depth k := by
  obtain ⟨hk, hd⟩ := Prod.mk.inj h
  rw [isKeywordAt, isKeywordAt, isKeyword, isKeyword, hk, hd]

theorem isSymbolAt_of_role (h : u.role = t.role) (s : Symbol) : u.isSymbolAt depth s = t.isSymbolAt depth s := by
  obtain ⟨hk, hd⟩ := Prod.mk.inj h
  rw [isSymbolAt, isSymbolAt, isSymbol, isSymbol, hk, hd]

/-- What holds of all tokens by their parts holds of all that play the same ones. -/
theorem forall_of_roles {p : Token → Bool} (hp : ∀ {t u : Token}, u.role = t.role → p u = p t)
    (h : us.map role = ts.map role) (hts : ∀ t ∈ ts, p t = false) : ∀ u ∈ us, p u = false := by
  intro u hu
  obtain ⟨t, ht, heq⟩ := List.mem_map.1 (h ▸ List.mem_map_of_mem hu : u.role ∈ ts.map role)
  rw [hp heq.symm, hts t ht]

theorem kinds_of_roles (h : us.map role = ts.map role) : us.map (·.kind) = ts.map (·.kind) := by
  have hfst := congrArg (List.map Prod.fst) h
  rwa [List.map_map, List.map_map] at hfst

/-- In runs from the same depth tokens of the same kinds have the same depths. -/
theorem Run.roles_eq (h : Run d ts e) (h' : Run d us e') (hk : us.map (·.kind) = ts.map (·.kind)) :
    us.map role = ts.map role := by
  have hsymbol : ∀ {t u : Token} {s : Symbol}, u.kind = t.kind → u.isSymbol s = t.isSymbol s := by
    intro t u s h
    rw [isSymbol, isSymbol, h]
  induction h generalizing us with
  | nil =>
    obtain rfl := List.map_eq_nil_iff.1 hk
    rfl
  | opening paren depth _ ih =>
    obtain ⟨u, us, rfl, hu, hk⟩ := List.map_eq_cons_iff.1 hk
    cases h' with
    | opening _ hd rest => rw [List.map_cons, List.map_cons, ih rest hk, role, role, hu, hd, depth]
    | closing paren' => simp [hsymbol hu, isSymbol_eq_false_of_isSymbol paren] at paren'
    | plain left => simp [hsymbol hu, paren] at left
  | closing paren depth _ ih =>
    obtain ⟨u, us, rfl, hu, hk⟩ := List.map_eq_cons_iff.1 hk
    cases h' with
    | opening paren' => simp [hsymbol hu, isSymbol_eq_false_of_isSymbol paren] at paren'
    | closing _ hd rest => rw [List.map_cons, List.map_cons, ih rest hk, role, role, hu, hd, depth]
    | plain _ right => simp [hsymbol hu, paren] at right
  | plain left right depth _ ih =>
    obtain ⟨u, us, rfl, hu, hk⟩ := List.map_eq_cons_iff.1 hk
    obtain ⟨hd, rest⟩ := h'.of_cons ((hsymbol hu).trans left) ((hsymbol hu).trans right)
    rw [List.map_cons, List.map_cons, ih rest hk, role, role, hu, hd, depth]

/-- What stands deeper is no comma and no keyword of a depth. -/
theorem Level.inside (h : Level (depth + 1) ts) (k : Keyword) (s : Symbol) :
    ∀ t ∈ ts, t.isKeywordAt depth k = false ∧ t.isSymbolAt depth s = false := by
  intro t ht
  have hne : t.depth ≠ depth := by
    have := h.le t ht
    omega
  simp [isKeywordAt, isSymbolAt, hne]

end Token

/-! ### Operators and blocks -/

namespace IsOperator

open Token (EndsWith)
open Keyword (sides foreignSides)

variable {before words before' words' pre : List Token} {closing : Token}

/-- Operators are told by the kinds of the tokens. -/
theorem congr (h : IsOperator before words) (hb : before'.map (·.kind) = before.map (·.kind))
    (hw : words'.map (·.kind) = words.map (·.kind)) : IsOperator before' words' := by
  have hends : ∀ ks, EndsWith ks (before' ++ words') ↔ EndsWith ks (before ++ words) := by
    intro ks
    rw [EndsWith, EndsWith, List.map_append, List.map_append, hb, hw]
  have hlength : words'.length = words.length := by simpa using congrArg List.length hw
  refine ⟨?_, fun ks hks he => ?_, fun he => ?_, fun ks hks he => h.native ks hks ((hends ks).1 he)⟩
  · obtain ⟨ks, hks, hkinds⟩ := h.known
    exact ⟨ks, hks, hw.trans hkinds⟩
  · rw [hlength]
    exact h.longest ks hks ((hends ks).1 he)
  · rw [hends, hends]
    exact h.sided ((hends _).1 he)

/-- Words that make an operator make one behind every parenthesis. -/
theorem behind_paren (pre : List Token) (h : IsOperator before words) (hw : words'.map (·.kind) = words.map (·.kind))
    (hright : closing.isSymbol .rightParen = true) : IsOperator (pre ++ [closing]) words' := by
  obtain ⟨ks₀, hks₀, hkinds⟩ := h.known
  have hclosing := Kind.isSymbol_iff.1 hright
  -- What the tokens end with, they end with behind the parenthesis.
  have hends : ∀ {ks : List Keyword}, EndsWith ks (pre ++ [closing] ++ words') → ks <:+ ks₀ := by
    intro ks he
    have hwhole : (words'.map fun t => t.kind) <:+ (pre ++ [closing] ++ words').map fun t => t.kind := by
      rw [List.map_append]
      exact List.suffix_append _ _
    rw [EndsWith] at he
    rw [hw, hkinds] at hwhole
    rcases List.suffix_or_suffix_of_suffix he hwhole with hshort | hlong
    · exact (List.suffix_map_iff_of_injective (fun _ _ hk => Kind.keyword.inj hk)).1 hshort
    · obtain ⟨front, hfront⟩ := hlong
      rcases List.eq_nil_or_concat front with rfl | ⟨front, k, rfl⟩
      · rw [List.nil_append] at hfront
        obtain rfl := List.map_injective_iff.2 (fun _ _ hk => Kind.keyword.inj hk) hfront
        exact List.suffix_refl _
      · obtain ⟨more, hmore⟩ := he
        have hall := hmore.trans (by rw [List.map_append, List.map_append, hw, hkinds])
        rw [← hfront, ← List.append_assoc] at hall
        have hk := List.append_inj_left' hall rfl
        rw [List.concat_eq_append, ← List.append_assoc, List.map_singleton] at hk
        have hparen := List.append_inj_right' hk rfl
        have hmem : k ∈ ks.map Kind.keyword := by
          rw [← hfront]
          simp
        obtain ⟨w, -, rfl⟩ := List.mem_map.1 hmem
        simp [hclosing] at hparen
  refine ⟨⟨ks₀, hks₀, hw.trans hkinds⟩, fun ks hks he => ?_, fun he => ?_, fun ks hks he => ?_⟩
  · have hlength : words'.length = ks₀.length := by simpa using congrArg List.length (hw.trans hkinds)
    rw [hlength]
    exact (hends he).length_le
  · have houter : ∀ ks ∈ sides, [Keyword.OUTER] <:+ ks → ks = [.LEFT, .OUTER] ∨ ks = [.RIGHT, .OUTER] := by decide
    have hsuffix : ∀ ks, ks = ks₀ → EndsWith ks (pre ++ [closing] ++ words') := by
      rintro ks rfl
      rw [EndsWith, List.map_append, hw, hkinds]
      exact List.suffix_append _ _
    exact (houter ks₀ hks₀ (hends he)).imp (fun heq => hsuffix _ heq.symm) fun heq => hsuffix _ heq.symm
  · have hforeign : ∀ ks ∈ foreignSides, ∀ ks' ∈ sides, ¬ ks <:+ ks' := by decide
    exact hforeign ks hks ks₀ hks₀ (hends he)

end IsOperator

namespace JoinTree

variable {b left : JoinTree} {words operand condition us ts : List Token} {j on : Token}

theorem IsPart.congr (h : IsPart depth ts) (hu : us.map Token.role = ts.map Token.role) : IsPart depth us := by
  refine ⟨?_, Token.forall_of_roles (fun heq => Token.isKeywordAt_of_role heq _) hu h.2⟩
  rintro rfl
  exact h.1 (List.map_eq_nil_iff.1 hu.symm)

/-- The parts of a join behind its left side. -/
theorem exists_parts (hu : us.map Token.role = (words ++ j :: (operand ++ on :: condition)).map Token.role) :
    ∃ words' j' operand' on' condition', us = words' ++ j' :: (operand' ++ on' :: condition') ∧
      words'.map Token.role = words.map Token.role ∧ j'.role = j.role ∧
      operand'.map Token.role = operand.map Token.role ∧ on'.role = on.role ∧
      condition'.map Token.role = condition.map Token.role := by
  rw [List.map_append, List.map_cons, List.map_append, List.map_cons] at hu
  obtain ⟨words', us, rfl, hwords, hrest⟩ := List.map_eq_append_iff.1 hu
  obtain ⟨j', us, rfl, hj, hrest⟩ := List.map_eq_cons_iff.1 hrest
  obtain ⟨operand', us, rfl, hoperand, hrest⟩ := List.map_eq_append_iff.1 hrest
  obtain ⟨on', condition', rfl, hon, hcondition⟩ := List.map_eq_cons_iff.1 hrest
  exact ⟨words', j', operand', on', condition', rfl, hwords, hj, hoperand, hon, hcondition⟩

/-- A join with another left side, of tokens that play the same parts. -/
theorem WellFormed.join_congr {left' : JoinTree} {words' operand' condition' : List Token} {j' on' : Token}
    (h : WellFormed depth (.join left words j operand on condition)) (hleft : left'.WellFormed depth)
    (hop : IsOperator left'.tokens words') (hj : j'.role = j.role)
    (hoperand : operand'.map Token.role = operand.map Token.role) (hon : on'.role = on.role)
    (hcondition : condition'.map Token.role = condition.map Token.role) :
    WellFormed depth (.join left' words' j' operand' on' condition') := by
  cases h with
  | join shorter operator joins named starts parts holds =>
    refine .join hleft hop ?_ (named.congr hoperand) ?_ ?_ (holds.congr hcondition)
    · rwa [Token.isKeywordAt_of_role hj]
    · intro t ht
      obtain ⟨u, hu, heq⟩ : ∃ u ∈ operand.head?, u.role = t.role := by
        have hhead := congrArg List.head? hoperand
        rw [List.head?_map, List.head?_map, ht] at hhead
        obtain ⟨u, hu, heq⟩ := Option.map_eq_some_iff.1 hhead.symm
        exact ⟨u, hu, heq⟩
      have hk : t.kind = u.kind := (Prod.mk.inj heq).1.symm
      have hstarts := starts u hu
      rwa [Token.isKeyword, ← hk] at hstarts
    · rwa [Token.isKeywordAt_of_role hon]

/-- Tokens that play the parts of a block make a block. -/
theorem exists_alike (h : b.WellFormed depth) (hu : us.map Token.role = b.tokens.map Token.role) :
    ∃ b' : JoinTree, b'.WellFormed depth ∧ b'.tokens = us ∧ b'.joins = b.joins := by
  induction h generalizing us with
  | table part => exact ⟨.table us, .table (part.congr hu), rfl, rfl⟩
  | @join left words operand condition j on shorter operator joins named starts parts holds ih =>
    rw [tokens_join, List.map_append] at hu
    obtain ⟨us, vs, rfl, hleft, hrest⟩ := List.map_eq_append_iff.1 hu
    obtain ⟨left', hwf, rfl, hjoins⟩ := ih hleft
    obtain ⟨words', j', operand', on', condition', rfl, hwords, hj, hoperand, hon, hcondition⟩ := exists_parts hrest
    have hop := operator.congr (Token.kinds_of_roles hleft) (Token.kinds_of_roles hwords)
    refine ⟨.join left' words' j' operand' on' condition', ?_, rfl, by rw [JoinTree.joins, hjoins, JoinTree.joins]⟩
    exact (WellFormed.join shorter operator joins named starts parts holds).join_congr hwf hop hj hoperand hon hcondition

/-- A block has as many joins as words `JOIN` of its depth. -/
theorem WellFormed.countP_join (h : b.WellFormed depth) : b.tokens.countP (Token.isKeywordAt depth .JOIN) = b.joins := by
  have hzero : ∀ {ts : List Token}, (∀ t ∈ ts, t.isKeywordAt depth .JOIN = false) →
      ts.countP (Token.isKeywordAt depth .JOIN) = 0 := by
    intro ts hts
    exact List.countP_eq_zero.2 fun t ht => by simp [hts t ht]
  induction h with
  | table part => exact hzero part.2
  | @join left words operand condition j on shorter operator joins named starts parts holds ih =>
    have hon : on.isKeywordAt depth .JOIN = false := by
      rw [Token.isKeywordAt, JoinChain.isKeyword_eq_false_of_ne (Token.isKeyword_of_isKeywordAt parts) (by decide),
        Bool.and_false]
    rw [tokens_join, List.countP_append, ih, List.countP_append, hzero (JoinChain.not_join_of_isOperator operator),
      List.countP_cons_of_pos joins, List.countP_append, hzero named.2, List.countP_cons_of_neg (by simp [hon]),
      hzero holds.2]
    rfl

/-- A block with one join at most, and with none where it would become a table, stays as it is. -/
theorem rewritten_of_le (h : b.joins ≤ if isWrapped then 0 else 1) (index : Nat) :
    b.rewritten isWrapped index = Token.spell b.tokens := by
  have hnested : b.joins ≤ 1 → b.nested = Token.spell b.tokens := by
    intro hle
    cases b with
    | table => rfl
    | join left words j operand on condition =>
      rw [joins] at hle
      rw [nested, if_pos (by omega)]
  cases isWrapped with
  | true =>
    have hzero : b.joins = 0 := Nat.le_zero.1 h
    rw [rewritten, if_neg (by omega), hnested (by omega)]
  | false => rw [rewritten, if_neg (by simp), hnested h]

/-- The kinds of a block that becomes a table. -/
theorem rewrittenKinds_of_wrapped (h : isWrapped = true ∧ 0 < b.joins) (index : Nat) :
    b.rewrittenKinds isWrapped index = .symbol .leftParen :: ((Lexeme.wordKind "select".toList :: .symbol .star ::
      Lexeme.wordKind "from".toList :: Cell.kinds b.nestedCells) ++ .symbol .rightParen ::
        [Lexeme.wordKind "as".toList, Lexeme.wordKind (JoinChain.aliasName index)]) := by
  rw [rewrittenKinds, frontCells, endCells, if_pos h, if_pos h, List.append_assoc, Cell.kinds_append,
    Cell.kinds_append]
  rfl

theorem rewrittenKinds_of_not (h : ¬ (isWrapped = true ∧ 0 < b.joins)) (index : Nat) :
    b.rewrittenKinds isWrapped index = Cell.kinds b.nestedCells := by
  rw [rewrittenKinds, frontCells, endCells, if_neg h, if_neg h, List.append_nil]

/-- The words behind a table that a block becomes are no joins and no commas. -/
theorem plain_of_name {t : Token} {i : Nat} (h : t.kind = Lexeme.wordKind "as".toList ∨
    t.kind = Lexeme.wordKind (JoinChain.aliasName i)) :
    t.isKeywordAt depth .JOIN = false ∧ t.isSymbolAt depth .comma = false := by
  have hword : ∀ w : SqlText, w.head?.map Char.toLower ≠ some 'j' → t.kind = Lexeme.wordKind w →
      t.isKeyword .JOIN = false ∧ t.isSymbol .comma = false := by
    intro w hw ht
    rcases Lexeme.wordKind_eq w with hk | ⟨k, hkey, hk⟩
    · simp [Token.isKeyword, Token.isSymbol, Kind.isKeyword, Kind.isSymbol, ht, hk]
    · have hne : k ≠ .JOIN := by
        rintro rfl
        refine hw ?_
        have hlower := Tally.lower_eq_of_ofWord? hkey
        rw [← List.head?_map]
        exact congrArg List.head? hlower
      simp [Token.isKeyword, Token.isSymbol, Kind.isKeyword, Kind.isSymbol, ht, hk, hne]
  obtain ⟨hj, hc⟩ : t.isKeyword .JOIN = false ∧ t.isSymbol .comma = false := by
    rcases h with ht | ht
    · exact hword _ (by decide) ht
    · refine hword _ ?_ ht
      rw [JoinChain.aliasName]
      exact (by decide : some 'a' ≠ some 'j')
  simp [Token.isKeywordAt, Token.isSymbolAt, hj, hc]

open FromClause (IsBlock)

/-- A group in parentheses and words that are no joins and no commas make a table. -/
theorem isBlock_table {opening closing : Token} {inside : List Token} (behind : List Token) (hl : Level (depth + 1) inside)
    (hleft : opening.isSymbol .leftParen = true) (hright : closing.isSymbol .rightParen = true)
    (hbehind : ∀ t ∈ behind, t.isKeywordAt depth .JOIN = false ∧ t.isSymbolAt depth .comma = false) :
    IsBlock depth (.table (opening :: (inside ++ closing :: behind))) := by
  have hall : ∀ t ∈ opening :: (inside ++ closing :: behind),
      t.isKeywordAt depth .JOIN = false ∧ t.isSymbolAt depth .comma = false := by
    have hopening := Kind.isSymbol_iff.1 hleft
    have hclosing := Kind.isSymbol_iff.1 hright
    simp only [List.forall_mem_cons, List.forall_mem_append]
    refine ⟨?_, hl.inside _ _, ?_, hbehind⟩
    · simp [Token.isKeywordAt, Token.isSymbolAt, Token.isKeyword, Token.isSymbol, Kind.isKeyword, Kind.isSymbol,
        hopening]
    · simp [Token.isKeywordAt, Token.isSymbolAt, Token.isKeyword, Token.isSymbol, Kind.isKeyword, Kind.isSymbol,
        hclosing]
  exact ⟨.table ⟨List.cons_ne_nil _ _, fun t ht => (hall t ht).1⟩, fun t ht => (hall t ht).2⟩

/-- The tokens of a block that is nested, in parentheses up to its last operator, make a block of one join. -/
theorem exists_nested (hb : IsBlock depth b) (hl : Level depth b.tokens) (hus : Level depth us)
    (hk : us.map (·.kind) = Cell.kinds b.nestedCells) :
    ∃ b' : JoinTree, IsBlock depth b' ∧ b'.tokens = us ∧ b'.joins = min b.joins 1 := by
  have halike : us.map (·.kind) = b.tokens.map (·.kind) →
      ∃ b' : JoinTree, IsBlock depth b' ∧ b'.tokens = us ∧ b'.joins = b.joins := by
    intro hkinds
    have hroles := hl.run.roles_eq hus.run hkinds
    obtain ⟨b', hb', rfl, hjoins⟩ := exists_alike hb.1 hroles
    exact ⟨b', ⟨hb', Token.forall_of_roles (fun h => Token.isSymbolAt_of_role h _) hroles hb.2⟩, rfl, hjoins⟩
  cases b with
  | table ts =>
    rw [nestedCells, Token.kinds_stretch] at hk
    exact halike hk
  | join left words j operand on condition =>
    by_cases hzero : left.joins = 0
    · rw [nestedCells, if_pos hzero, Token.kinds_stretch] at hk
      obtain ⟨b', hb', htokens, hjoins⟩ := halike hk
      refine ⟨b', hb', htokens, ?_⟩
      rw [hjoins, joins]
      omega
    · obtain ⟨hleft, hrest⟩ := level_of_join hb.1 hl
      have hshorter : left.WellFormed depth := by
        cases hb.1 with
        | join shorter => exact shorter
      rw [nestedCells, if_neg hzero] at hk
      have hsplit : us.map (·.kind) = .symbol .leftParen :: (Cell.kinds left.nestedCells ++
          .symbol .rightParen :: (words ++ j :: (operand ++ on :: condition)).map (·.kind)) := by
        rw [hk, ← Token.kinds_cells]
        exact congrArg _ (Cell.kinds_append ..)
      obtain ⟨opening, inside, closing, vs, rfl, hopening, -, hinside, -, hclosing, -, hbehind, hvs⟩ :=
        hus.group hsplit (balanced_nestedCells hshorter hleft)
      have hroles := hrest.run.roles_eq hbehind.run hvs
      obtain ⟨words', j', operand', on', condition', rfl, hwords, hj, hoperand, hon, hcondition⟩ := exists_parts hroles
      have hfirst := isBlock_table [] hinside hopening hclosing (List.forall_mem_nil _)
      have hop : IsOperator (opening :: (inside ++ [closing])) words' := by
        cases hb.1 with
        | join shorter operator => exact operator.behind_paren (opening :: inside) (Token.kinds_of_roles hwords) hclosing
      refine ⟨.join (.table (opening :: (inside ++ [closing]))) words' j' operand' on' condition',
        ⟨hb.1.join_congr hfirst.1 hop hj hoperand hon hcondition, fun t ht => ?_⟩, by simp [tokens], ?_⟩
      · have hnot : ∀ t ∈ words ++ j :: (operand ++ on :: condition), t.isSymbolAt depth .comma = false :=
          fun t ht => hb.2 t (List.mem_append_right _ ht)
        rcases List.mem_append.1 ht with ht | ht
        · exact hfirst.2 t ht
        · exact Token.forall_of_roles (fun h => Token.isSymbolAt_of_role h _) hroles hnot t ht
      · rw [joins, joins, joins]
        omega

/-- The tokens of a block that is rewritten make a block of one join at most, and of none where there are several. -/
theorem exists_rewritten (hb : IsBlock depth b) (hl : Level depth b.tokens) (hus : Level depth us)
    (hk : us.map (·.kind) = b.rewrittenKinds isWrapped index) :
    ∃ b' : JoinTree, IsBlock depth b' ∧ b'.tokens = us ∧ b'.joins ≤ if isWrapped then 0 else 1 := by
  by_cases hwrapped : isWrapped = true ∧ 0 < b.joins
  · rw [rewrittenKinds_of_wrapped hwrapped] at hk
    have hbalanced := Balanced.word "select".toList (.plain (k := .symbol .star) nofun nofun
      (.word "from".toList (balanced_nestedCells hb.1 hl)))
    obtain ⟨opening, inside, closing, vs, rfl, hopening, -, hinside, -, hclosing, -, -, hvs⟩ := hus.group hk hbalanced
    refine ⟨.table _, isBlock_table _ hinside hopening hclosing fun t ht => plain_of_name (i := index) ?_, rfl,
      Nat.zero_le _⟩
    have hmem : t.kind ∈ vs.map (·.kind) := List.mem_map_of_mem ht
    rw [hvs] at hmem
    simpa using hmem
  · rw [rewrittenKinds_of_not hwrapped] at hk
    obtain ⟨b', hb', htokens, hjoins⟩ := exists_nested hb hl hus hk
    refine ⟨b', hb', htokens, ?_⟩
    split
    · next h =>
      have hzero : ¬ 0 < b.joins := fun hpos => hwrapped ⟨h, hpos⟩
      omega
    · omega

end JoinTree

/-! ### Clauses -/

namespace FromClause

open JoinTree (rewritten)

variable {c : FromClause} {us : List Token}

/-- The tokens of a clause that is rewritten make a clause of as many blocks, each with one join at most, and with none
where there are several. -/
theorem WellFormed.exists_rewritten (h : c.WellFormed depth) (hl : Level depth c.tokens) (hus : Level depth us)
    (hk : us.map (·.kind) = kindsFrom isWrapped index c.first c.others) :
    ∃ c' : FromClause, c'.WellFormed depth ∧ c'.tokens = us ∧ c'.blocks.length = c.blocks.length ∧
      ∀ b ∈ c'.blocks, b.joins ≤ if isWrapped then 0 else 1 := by
  obtain ⟨b, others⟩ := c
  induction others generalizing b index us with
  | nil =>
    rw [tokens_single] at hl
    obtain ⟨b', hb', rfl, hjoins⟩ := JoinTree.exists_rewritten h.first hl hus hk
    exact ⟨⟨b', []⟩, ⟨hb', nofun⟩, tokens_single b', rfl, List.forall_mem_singleton.2 hjoins⟩
  | cons p others ih =>
    obtain ⟨comma, b₂⟩ := p
    obtain ⟨⟨hcomma, hb₂⟩, hothers⟩ := List.forall_mem_cons.1 h.others
    rw [tokens_cons] at hl
    obtain ⟨hleft, hright⟩ := Token.not_paren_of_isSymbolAt_comma hcomma
    have hdepth := Token.depth_of_isSymbolAt hcomma
    obtain ⟨hlb, hlrest⟩ := hl.split hdepth hleft hright
    obtain ⟨vs, ws, rfl, hvs, hws⟩ := List.map_eq_append_iff.1 hk
    obtain ⟨comma', ws, rfl, hcomma', hrest⟩ := List.map_eq_cons_iff.1 hws
    have hbalanced : Balanced (vs.map (·.kind)) := by
      rw [hvs]
      exact JoinTree.balanced_frontCells h.first.1 hlb
    obtain ⟨hlvs, hlws⟩ := hus.split_balanced hbalanced
    have hsame : ∀ s, comma'.isSymbol s = comma.isSymbol s := by
      intro s
      rw [Token.isSymbol, Token.isSymbol, hcomma']
    have hlws' := hlws.tail ((hsame _).trans hleft) ((hsame _).trans hright)
    obtain ⟨b', hb', rfl, hjoins⟩ := JoinTree.exists_rewritten h.first hlb hlvs hvs
    obtain ⟨⟨b₂', others'⟩, hc', rfl, hlength, hall⟩ := ih hlws' b₂ ⟨hb₂, hothers⟩ hlrest hrest
    refine ⟨⟨b', (comma', b₂') :: others'⟩, ⟨hb', List.forall_mem_cons.2 ⟨⟨?_, hc'.first⟩, hc'.others⟩⟩, rfl, ?_,
      List.forall_mem_cons.2 ⟨hjoins, hall⟩⟩
    · rw [Token.isSymbolAt, hlws.depth_first, beq_self_eq_true, Bool.true_and, hsame]
      exact Token.isSymbol_of_isSymbolAt hcomma
    · simpa [blocks] using hlength

/-- What is written for the blocks makes the text. -/
theorem textFrom_congr {write write' : Nat → JoinTree → SqlText} {b : JoinTree} {others : List (Token × JoinTree)}
    (h : ∀ i, ∀ b' ∈ (⟨b, others⟩ : FromClause).blocks, write i b' = write' i b') (index : Nat) :
    textFrom write index b others = textFrom write' index b others := by
  induction others generalizing index b with
  | nil => rw [textFrom, textFrom, h index b List.mem_cons_self]
  | cons p others ih =>
    rw [textFrom, textFrom, h index b List.mem_cons_self, ih fun i b' hb' => h i b' (List.mem_cons_of_mem _ hb')]

end FromClause

/-! ### Whole texts -/

namespace JoinChain

open Cell (Sound)
open Token (stretch lead)
open JoinTree (rewritten)

variable {c : FromClause} {text g : SqlText}

/-- What nesting writes is read as the clause that is rewritten. -/
theorem exists_query_of_nestClause (hc : c.IsOf text) (h : nestClause text = .ok g) :
    ∃ q, Query.ofText g = .ok q ∧ Level 0 q.tokens ∧
      q.tokens.map (·.kind) = FromClause.kindsFrom c.isWrapped 0 c.first c.others := by
  obtain ⟨rest, htext, hok⟩ := nestClause_of_isOf hc
  obtain ⟨q, hq, htokens, hwf⟩ := hc
  obtain rfl := Except.ok.inj (h.symm.trans hok)
  have hreads := Query.reads hq
  obtain ⟨rfl, tail, hread⟩ := Query.isRead hq
  have hrest : rest = Cell.spell tail := by
    have hall := hread.text_eq
    rw [htokens, ← FromClause.textFrom_spell 0] at hall
    exact List.append_cancel_left (htext.symm.trans hall)
  subst hrest
  have hlevel := hreads.level
  have hplain := hread.plain
  have hsound := hread.sound
  rw [htokens] at hlevel hplain hsound
  have hne : c.tokens ≠ [] := List.append_ne_nil_of_left_ne_nil hwf.first.1.tokens_ne_nil _
  obtain ⟨N, E, i, hend, hwritten, hrefits, htoken, -, hkinds, hproper⟩ := hwf.exists_cells c.isWrapped 0 hlevel hplain
  obtain ⟨hbalanced, hfault⟩ := hproper (aliasName i)
  rw [hkinds] at hbalanced hfault
  -- The name of the last table is not run into by what stands at the end.
  have htail : Sound tail := hsound.of_append
  have hhead : (Cell.spell tail).head?.any Text.continuesWord = false := by
    rcases hread.tail with rfl | ⟨gap, rfl⟩
    · rfl
    · have hgap := (Cell.sound_cons_iff.1 htail).1.head_gap []
      exact hgap
  have hlast : Sound (E (aliasName i) ++ tail) ∧
      Text.StandsIn (Cell.spell tail) (Cell.spell (E (aliasName i) ++ tail)) := by
    rcases hend with rfl | rfl
    · exact ⟨htail, .refl _⟩
    · exact ⟨Cell.sound_namedCells (isWord_aliasName i) rfl htail hhead,
        .of_stops (Cell.stops_sign (.inr (.inl rfl)) _)⟩
  rw [Token.cells_eq hne] at hsound
  have hstretch : stretch c.tokens ≠ [] := by
    obtain ⟨t, ts, ht⟩ := List.exists_cons_of_ne_nil hne
    rw [ht]
    exact List.cons_ne_nil _ _
  have hnew := (hrefits.ofGap (g := lead c.tokens) hstretch htoken hsound hlast.1 hlast.2).1
  have htextWith : c.textWith (rewritten c.isWrapped) ++ Cell.spell tail
      = Cell.spell (Cell.ofGap (lead c.tokens) ++ N ++ (E (aliasName i) ++ tail)) := by
    rw [FromClause.textWith, hwritten]
    simp
  have hcells : Cell.kinds (Cell.ofText (c.textWith (rewritten c.isWrapped) ++ Cell.spell tail))
      = FromClause.kindsFrom c.isWrapped 0 c.first c.others := by
    have hnone : Cell.kinds tail = [] := by
      rcases hread.tail with rfl | ⟨gap, rfl⟩
      · rfl
      · rfl
    rw [htextWith, hnew.ofText_spell, ← hkinds]
    simp [hnone]
  rw [← hcells] at hfault hbalanced
  obtain ⟨q', hq'⟩ := Query.exists_of_balanced hfault hbalanced
  have hreads' := Query.reads hq'
  refine ⟨q', hq', hreads'.level, ?_⟩
  rw [hreads'.kinds, Cell.kinds_filter_isToken, hcells]

/-- **Nesting again.**  What nesting writes has nothing left to nest: its blocks between commas have one join at most if
there is one block, and none if there are several, and nesting it changes nothing. -/
theorem nestClause_again (text g : SqlText) (h : nestClause text = .ok g) :
    nestClause g = .ok g ∧ ∃ q, Query.ofText g = .ok q ∧ ∀ block ∈ Token.splitCommas 0 q.tokens,
      block.countP (Token.isKeywordAt 0 .JOIN) ≤ if (Token.splitCommas 0 q.tokens).length = 1 then 1 else 0 := by
  obtain ⟨c, hc⟩ := isOf_of_nestClause h
  obtain ⟨q, hq, hlevel, hkinds⟩ := exists_query_of_nestClause hc h
  have hwf : c.WellFormed 0 ∧ Level 0 c.tokens := by
    obtain ⟨q₀, hq₀, htokens, hwf⟩ := hc
    exact ⟨hwf, htokens ▸ (Query.reads hq₀).level⟩
  obtain ⟨c', hc', htokens, hlength, hjoins⟩ := hwf.1.exists_rewritten hwf.2 hlevel hkinds
  have hwrapped : c'.isWrapped = c.isWrapped := by rw [FromClause.isWrapped, FromClause.isWrapped, hlength]
  constructor
  · obtain ⟨rest, htext, hok⟩ := nestClause_of_isOf ⟨q, hq, htokens.symm, hc'⟩
    have hsame : c'.textWith (rewritten c'.isWrapped) = c'.textWith (fun _ b => Token.spell b.tokens) := by
      refine FromClause.textFrom_congr (fun i b hb => JoinTree.rewritten_of_le ?_ i) 0
      rw [hwrapped]
      exact hjoins b hb
    rw [hok, hsame, ← htext]
  · have hpieces : Token.splitCommas 0 q.tokens = c'.blocks.map JoinTree.tokens := by
      rw [Token.splitCommas, ← htokens]
      exact hc'.map_tokens_pieces 0
    refine ⟨q, hq, ?_⟩
    rw [hpieces, List.length_map, List.forall_mem_map]
    intro b hb
    have hblock : b.WellFormed 0 := by
      rcases List.mem_cons.1 hb with rfl | hb
      · exact hc'.first.1
      · obtain ⟨p, hp, rfl⟩ := List.mem_map.1 hb
        exact (hc'.others p hp).2.1
    rw [hblock.countP_join]
    refine (hjoins b hb).trans ?_
    rw [FromClause.isWrapped, ← hlength]
    have hpos : 0 < c'.blocks.length := Nat.succ_pos _
    split
    · exact Nat.zero_le _
    · next hone =>
      rw [if_pos]
      simp at hone
      omega

/-- Three joins beside another block with one. -/
theorem nestClause_again_two_blocks :
    nestClause ("(select * from ((a join b on a.x = b.x) left join c on b.y = c.y) join d on c.z = d.z) as alias0, "
      ++ "(select * from e inner join f on e.x = f.x) as alias1").toList
    = .ok ("(select * from ((a join b on a.x = b.x) left join c on b.y = c.y) join d on c.z = d.z) as alias0, "
      ++ "(select * from e inner join f on e.x = f.x) as alias1").toList :=
  (nestClause_again ("a join b on a.x = b.x left join c on b.y = c.y join d on c.z = d.z, "
    ++ "e inner join f on e.x = f.x").toList _ (by decide +kernel)).1

end JoinChain

end JetAdapter
