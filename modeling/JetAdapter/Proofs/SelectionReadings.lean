import JetAdapter.Proofs.DistinctSwaps
import JetAdapter.Proofs.Selections

/-!
# Reading selections

What the rule for aggregates over distinct values sees of a text that is a phrase.  The first call of a group is that
of what is inside, or else of what stands behind it (`first?_parens`); the clauses of a selection are those that its
phrase is cut into (`reads_cut`).  Where a call does not stand directly behind a `SELECT` and what modifies it, there
is no edit of the scope around it (`opens_of_scopeEdit`).
-/

namespace JetAdapter

open Token (Reads Level)

/-! ### Reading phrases -/

namespace Token.Reads

variable {cs ds : List Cell} {ts us vs : List Token} {d : Nat} {opening closing : Token}

theorem concat (h : Reads d cs us) (h' : Reads d ds vs) : Reads d (cs ++ ds) (us ++ vs) :=
  ⟨h.level.append h'.level, by rw [List.map_append, h.cells, h'.cells]⟩

/-- A group in parentheses is read as it was put together. -/
theorem parens (h : Reads (d + 1) cs us) (hopening : opening.cell = Cell.sign '(') (hd : opening.depth = d)
    (hclosing : closing.cell = Cell.sign ')') (hd' : closing.depth = d) :
    Reads d (Cell.sign '(' :: (cs ++ [Cell.sign ')'])) (opening :: (us ++ [closing])) := by
  refine ⟨⟨.opening (isSymbol_of_cell hopening) hd
    (h.level.run.append (.closing (isSymbol_of_cell hclosing) hd' .nil)), ?_⟩,
    ?_⟩
  · simp only [List.forall_mem_cons, List.forall_mem_append]
    exact ⟨Nat.le_of_eq hd.symm, fun t ht => Nat.le_of_succ_le (h.level.le t ht), Nat.le_of_eq hd'.symm, List.forall_mem_nil _⟩
  · simp [hopening, hclosing, h.cells]

end Token.Reads

namespace Distinct

open Phrase (Agrees opened?)

variable {p body rest behind argument : Phrase} {l l' : Leaf} {modifiers : List Leaf} {word : SqlText} {d : Nat}
  {ts us vs ms : List Token} {t opening closing name distinct : Token} {cs : List Cell} {k : Keyword}

namespace Phrase

theorem reads_leaf (h : Reads d (leaf l p).cells ts) :
    ∃ t us, ts = t :: us ∧ t.kind = l.kind ∧ t.cell = l.cell ∧ t.depth = d ∧ Reads d [l.cell] [t] ∧
      Reads d p.cells us := by
  obtain ⟨t, us, rfl, hk, hw, hd, hus⟩ := Reads.cons (k := l.kind) (w := l.text) h l.left l.right
  have hone : Balanced (Cell.kinds [l.cell]) := .plain l.left l.right .nil
  obtain ⟨as, bs, heq, has, -⟩ := Reads.append (show Reads d ([l.cell] ++ p.cells) (t :: us) from h) hone
  have hlone : Reads d [.token l.kind l.text] as := has
  obtain ⟨t', as', rfl, -, -, -, has'⟩ := hlone.cons l.left l.right
  obtain rfl := Reads.nil_iff.1 has'
  obtain ⟨rfl, -⟩ := List.cons.inj heq
  exact ⟨t, us, rfl, hk, by rw [Token.cell, hk, hw, Leaf.cell], hd, has, hus⟩

theorem reads_comma (h : Reads d (comma p).cells ts) :
    ∃ t us, ts = t :: us ∧ t.cell = Cell.sign ',' ∧ t.isSymbolAt d .comma = true ∧ Reads d [Cell.sign ','] [t] ∧
      Reads d p.cells us := by
  obtain ⟨t, us, rfl, hk, hw, hd, hus⟩ := Reads.cons (k := .symbol .comma) (w := [',']) h nofun nofun
  have ht : t.cell = Cell.sign ',' := by rw [Token.cell, hk, hw]; rfl
  refine ⟨t, us, rfl, ht, ?_, ⟨⟨.plain ?_ ?_ hd .nil, ?_⟩, by rw [List.map_singleton, ht]⟩, hus⟩
  · simp [Token.isSymbolAt, Token.isSymbol, Kind.isSymbol, hk, hd]
  · simp [Token.isSymbol, Kind.isSymbol, hk]
  · simp [Token.isSymbol, Kind.isSymbol, hk]
  · exact List.forall_mem_singleton.2 (Nat.le_of_eq hd.symm)

theorem reads_group (h : Reads d (group p rest).cells ts) :
    ∃ opening us closing vs, ts = opening :: (us ++ closing :: vs) ∧ opening.cell = Cell.sign '(' ∧ opening.depth = d ∧
      Reads (d + 1) p.cells us ∧ closing.cell = Cell.sign ')' ∧ closing.depth = d ∧ Reads d rest.cells vs :=
  Reads.group h p.balanced

/-- A `SELECT`, what modifies it, and the rest. -/
theorem reads_selection (h : Reads d (selectionCells word modifiers cs) ts) :
    ∃ t ms us, ts = t :: (ms ++ us) ∧ t.cell = .token (.keyword .SELECT) word ∧ t.depth = d ∧
      Reads d (modifiers.map Leaf.cell) ms ∧ Reads d cs us := by
  obtain ⟨t, ts, rfl, hk, hw, hd, hts⟩ := Reads.cons h nofun nofun
  have hb : Balanced (Cell.kinds (modifiers.map Leaf.cell)) := by
    clear h hts
    induction modifiers with
    | nil => exact .nil
    | cons m ms ih => exact .plain m.left m.right ih
  obtain ⟨ms, us, rfl, hms, hus⟩ := hts.append hb
  exact ⟨t, ms, us, rfl, by rw [Token.cell, hk, hw], hd, hms, hus⟩

theorem reads_select (h : Reads d (select word modifiers body rest).cells ts) :
    ∃ opening us closing vs, ts = opening :: (us ++ closing :: vs) ∧ opening.cell = Cell.sign '(' ∧ opening.depth = d ∧
      Reads (d + 1) (selectionCells word modifiers body.cells) us ∧ closing.cell = Cell.sign ')' ∧ closing.depth = d ∧
      Reads d rest.cells vs :=
  Reads.group h (balanced_selectionCells modifiers word body.balanced)

/-- What a phrase starts with shows in its first token. -/
theorem head_isKeyword (h : Reads d p.cells ts) (k : Keyword) :
    (ts.head?.any fun t => t.isKeyword k) = p.startsWith k := by
  have hparen : ∀ {t : Token} {c : Char} {s : Symbol}, t.cell = .token (.symbol s) [c] → t.isKeyword k = false := by
    intro t c s ht
    rw [Token.isKeyword, (Cell.token.inj ht).1]
    rfl
  cases p with
  | nil =>
    obtain rfl := Reads.nil_iff.1 h
    rfl
  | leaf l rest =>
    obtain ⟨t, us, rfl, hk, -⟩ := reads_leaf h
    show t.isKeyword k = l.isKeyword k
    rw [Token.isKeyword, hk, Leaf.isKeyword]
  | comma rest =>
    obtain ⟨t, us, rfl, ht, -⟩ := reads_comma h
    exact hparen ht
  | group inside rest =>
    obtain ⟨opening, us, closing, vs, rfl, hopening, -⟩ := reads_group h
    exact hparen hopening
  | select word modifiers body rest =>
    obtain ⟨opening, us, closing, vs, rfl, hopening, -⟩ := reads_select h
    exact hparen hopening

theorem cells_eq_nil_iff : p.cells = [] ↔ p = nil := by
  cases p <;> simp [cells]

/-! ### Commas -/

/-- The commas of a phrase are those of its depth. -/
theorem any_isComma (h : Reads d p.cells ts) : ts.any (Token.isSymbolAt d .comma) = p.hasComma := by
  have hgroup : ∀ {opening closing : Token} {us vs : List Token} {cs : List Cell}, opening.cell = Cell.sign '(' →
      Reads (d + 1) cs us → closing.cell = Cell.sign ')' →
      (opening :: (us ++ closing :: vs)).any (Token.isSymbolAt d .comma) = vs.any (Token.isSymbolAt d .comma) := by
    intro opening closing us vs cs hopening hus hclosing
    have hparen : ∀ {t : Token} {c : Char} {s : Symbol}, t.cell = .token (.symbol s) [c] → s ≠ .comma →
        t.isSymbolAt d .comma = false := by
      intro t c s ht hs
      simp [Token.isSymbolAt, Token.isSymbol, Kind.isSymbol, (Cell.token.inj ht).1, hs]
    have hinside : us.any (Token.isSymbolAt d .comma) = false := by
      rw [List.any_eq_false]
      intro t ht
      have hne : t.depth ≠ d := by
        have hle := hus.level.le t ht
        omega
      simp [Token.isSymbolAt, hne]
    rw [List.any_cons, List.any_append, List.any_cons, hparen hopening (by decide), hparen hclosing (by decide),
      hinside]
    rfl
  induction p generalizing ts with
  | nil =>
    obtain rfl := Reads.nil_iff.1 h
    rfl
  | leaf l rest ih =>
    obtain ⟨t, us, rfl, hk, -, -, -, hus⟩ := reads_leaf h
    have hnot : t.isSymbolAt d .comma = false := by
      simp [Token.isSymbolAt, Token.isSymbol, Kind.isSymbol, hk, l.comma]
    rw [List.any_cons, hnot, ih hus]
    rfl
  | comma rest ih =>
    obtain ⟨t, us, rfl, -, ht, -⟩ := reads_comma h
    rw [List.any_cons, ht]
    rfl
  | group inside rest _ ih =>
    obtain ⟨opening, us, closing, vs, rfl, hopening, -, hus, hclosing, -, hvs⟩ := reads_group h
    rw [hgroup hopening hus hclosing]
    exact ih hvs
  | select word modifiers body rest _ ih =>
    obtain ⟨opening, us, closing, vs, rfl, hopening, -, hus, hclosing, -, hvs⟩ := reads_select h
    rw [hgroup hopening hus hclosing]
    exact ih hvs

/-- Without a comma a stretch is one piece. -/
theorem splitCommas_of_not (h : ts.any (Token.isSymbolAt d .comma) = false) : Token.splitCommas d ts = [ts] := by
  rw [List.any_eq_false] at h
  have hnil : Token.splitCommas d [] = [[]] := rfl
  have hsplit := Token.splitCommas_append_of_not (fun t ht => Bool.eq_false_iff.2 (h t ht)) hnil
  rwa [List.append_nil] at hsplit

/-- With a comma it is several pieces. -/
theorem splitCommas_ne_singleton (h : ts.any (Token.isSymbolAt d .comma) = true) (item : List Token) :
    Token.splitCommas d ts ≠ [item] := by
  intro hitem
  obtain ⟨t, ht, hat⟩ := List.any_eq_true.1 h
  obtain ⟨first, ps, hps⟩ := List.exists_cons_of_ne_nil (Token.pieces_ne_nil d 0 ts)
  obtain ⟨bs, hts, hfirst, hbs⟩ := Token.pieces_eq_cons hps
  rw [Token.splitCommas, hps] at hitem
  obtain ⟨-, hnil⟩ := List.cons.inj hitem
  rcases hbs with ⟨rfl, -⟩ | ⟨c, us, rfl, -, rfl⟩
  · rw [hts, List.append_nil] at ht
    rw [hfirst t ht] at hat
    cases hat
  · exact Token.pieces_ne_nil _ _ _ (List.map_eq_nil_iff.1 hnil)

theorem isOneExpression_of_reads (h : Reads (d + 1) p.cells ts) :
    Distinct.isOneExpression (d + 1) ts = p.isOneExpression := by
  have hlength : ((Token.splitCommas (d + 1) ts).length == 1) = !p.hasComma := by
    rw [← any_isComma h]
    cases hcomma : ts.any (Token.isSymbolAt (d + 1) .comma) with
    | false =>
      rw [splitCommas_of_not hcomma]
      rfl
    | true =>
      refine beq_eq_false_iff_ne.2 fun hone => ?_
      obtain ⟨item, hitem⟩ := List.length_eq_one_iff.1 hone
      exact splitCommas_ne_singleton hcomma item hitem
  cases p with
  | nil =>
    obtain rfl := Reads.nil_iff.1 h
    rfl
  | leaf l rest =>
    obtain ⟨t, us, rfl, hk, -⟩ := reads_leaf h
    rw [Distinct.isOneExpression, hlength, Phrase.isOneExpression, Token.isSymbol, hk]
    rfl
  | comma rest =>
    obtain ⟨t, us, rfl, -⟩ := reads_comma h
    rw [Distinct.isOneExpression, hlength]
    exact Bool.and_false _
  | group inside rest =>
    obtain ⟨opening, us, closing, vs, rfl, hopening, -⟩ := reads_group h
    rw [Distinct.isOneExpression, hlength, Token.isSymbol, (Cell.token.inj hopening).1]
    rfl
  | select word modifiers body rest =>
    obtain ⟨opening, us, closing, vs, rfl, hopening, -⟩ := reads_select h
    rw [Distinct.isOneExpression, hlength, Token.isSymbol, (Cell.token.inj hopening).1]
    rfl

theorem isAlias_of_reads (h : Reads d p.cells ts) (hcomma : p.hasComma = false) : Distinct.isAlias ts = p.isAlias := by
  cases p with
  | nil =>
    obtain rfl := Reads.nil_iff.1 h
    rfl
  | leaf l rest =>
    obtain ⟨t, us, rfl, hk, -, -, -, hus⟩ := reads_leaf h
    cases rest with
    | nil =>
      obtain rfl := Reads.nil_iff.1 hus
      rw [Distinct.isAlias, Phrase.isAlias, hk]
    | leaf l' rest =>
      obtain ⟨t', vs, rfl, hk', -, -, -, hvs⟩ := reads_leaf hus
      cases vs with
      | nil =>
        obtain rfl : rest = nil := cells_eq_nil_iff.1 hvs.cells.symm
        rw [Distinct.isAlias, Phrase.isAlias, Token.isKeyword, hk, Leaf.isKeyword]
      | cons v vs =>
        have hne : rest ≠ nil := by
          rintro rfl
          cases hvs.cells
        cases rest with
        | nil => exact absurd rfl hne
        | leaf | comma | group | select => rfl
    | comma rest => cases hcomma
    | group inside rest =>
      obtain ⟨opening, us, closing, vs, rfl, -⟩ := reads_group hus
      cases us <;> rfl
    | select word modifiers body rest =>
      obtain ⟨opening, us, closing, vs, rfl, -⟩ := reads_select hus
      cases us <;> rfl
  | comma rest => cases hcomma
  | group inside rest =>
    obtain ⟨opening, us, closing, vs, rfl, hopening, -⟩ := reads_group h
    have hword : opening.isKeyword .AS = false := by rw [Token.isKeyword, (Cell.token.inj hopening).1]; rfl
    cases us with
    | nil =>
      cases vs with
      | nil => exact hword
      | cons v vs => rfl
    | cons u us => cases us <;> rfl
  | select word modifiers body rest =>
    obtain ⟨opening, us, closing, vs, rfl, hopening, -, hus, -⟩ := reads_select h
    obtain ⟨t, ms, us, rfl, -⟩ := reads_selection hus
    show Distinct.isAlias (opening :: t :: ((ms ++ us) ++ closing :: vs)) = false
    cases ms ++ us <;> rfl

/-! ### Clauses -/

/-- The tokens are those before the clauses, and those of the clauses. -/
theorem append_flatMap_cut (d stop : Nat) (ts : List Token) :
    (Clause.cut d stop ts).1 ++ (Clause.cut d stop ts).2.flatMap (fun c => c.words ++ c.body) = ts := by
  induction ts with
  | nil => rfl
  | cons t ts ih =>
    rw [Clause.cut]
    simp only
    split
    · rw [List.cons_append, ih]
    · rw [List.nil_append, List.flatMap_cons, List.cons_append, List.take_append_drop, List.cons_append, ih]

/-- Whether a clause is read as one of a phrase. -/
structure ReadsClause (d : Nat) (c : Clause) (x : ClauseKind × Phrase) : Prop where
  kind : c.kind = x.1
  reads : Reads d x.2.cells (c.words ++ c.body)
  words : Clause.HasWords d c.kind c.words

/-- A token opens a clause where its leaf does. -/
theorem opened?_of_reads (hk : t.kind = l.kind) (h : Reads d p.cells ts) :
    ∃ more, Clause.opened? t ts = (opened? l p).map fun kind => (kind, more) := by
  unfold Clause.opened? opened?
  rw [hk, head_isKeyword h]
  generalize l.kind.keyword? = found
  generalize p.startsWith .BY = byFollows
  cases found with
  | none => exact ⟨0, rfl⟩
  | some k => cases byFollows <;> cases k <;> first | exact ⟨0, rfl⟩ | exact ⟨1, rfl⟩

theorem opened?_of_cell {c : Char} {s : Symbol} (h : t.cell = .token (.symbol s) [c]) (after : List Token) :
    Clause.opened? t after = none := by
  unfold Clause.opened?
  rw [(Cell.token.inj h).1]
  rfl

/-- The clauses of a stretch are those that its phrase is cut into. -/
theorem reads_cut (h : Reads d p.cells ts) (stop : Nat) : Reads d p.cut.1.cells (Clause.cut d stop ts).1 ∧
    List.Forall₂ (ReadsClause d) (Clause.cut d stop ts).2 p.cut.2 := by
  -- Parentheses and what is inside open no clause of the depth.
  have hgroup : ∀ {opening closing : Token} {us vs : List Token} {cs : List Cell} {q : Phrase},
      opening.cell = Cell.sign '(' → opening.depth = d → Reads (d + 1) cs us →
      closing.cell = Cell.sign ')' → closing.depth = d →
      (Reads d q.cut.1.cells (Clause.cut d stop vs).1 ∧ List.Forall₂ (ReadsClause d) (Clause.cut d stop vs).2 q.cut.2) →
      Reads d (Cell.sign '(' :: (cs ++ Cell.sign ')' :: q.cut.1.cells))
          (Clause.cut d stop (opening :: (us ++ closing :: vs))).1 ∧
        List.Forall₂ (ReadsClause d) (Clause.cut d stop (opening :: (us ++ closing :: vs))).2 q.cut.2 := by
    intro opening closing us vs cs q hopening hd hus hclosing hd' hvs
    have hnot : ∀ t ∈ opening :: (us ++ [closing]), t.depth = d → ∀ after, Clause.opened? t after = none := by
      simp only [List.forall_mem_cons, List.forall_mem_append]
      refine ⟨fun _ => opened?_of_cell hopening, fun t ht htd => ?_, fun _ => opened?_of_cell hclosing, nofun⟩
      have hle := hus.level.le t ht
      omega
    have hall : opening :: (us ++ closing :: vs) = (opening :: (us ++ [closing])) ++ vs := by simp
    rw [hall, Clause.cut_append_of_not hnot]
    refine ⟨?_, hvs.2⟩
    have hreads := (hus.parens hopening hd hclosing hd').concat hvs.1
    simpa using hreads
  induction p generalizing ts with
  | nil =>
    obtain rfl := Reads.nil_iff.1 h
    exact ⟨h, .nil⟩
  | leaf l rest ih =>
    obtain ⟨t, us, rfl, hk, -, hd, hone, hus⟩ := reads_leaf h
    obtain ⟨hfront, hclauses⟩ := ih hus
    obtain ⟨more, hopened⟩ := opened?_of_reads hk hus
    rw [Clause.cut, cut, if_pos hd, hopened]
    cases hkind : opened? l rest with
    | none => exact ⟨hone.concat hfront, hclauses⟩
    | some kind =>
      refine ⟨Reads.nil_iff.2 rfl, .cons ⟨rfl, ?_, ?_⟩ hclauses⟩
      · show Reads d (leaf l rest.cut.1).cells
          (t :: (Clause.cut d stop us).1.take more ++ (Clause.cut d stop us).1.drop more)
        rw [List.cons_append, List.take_append_drop]
        exact hone.concat hfront
      · rw [hkind] at hopened
        exact Clause.hasWords hd hopened
  | comma rest ih =>
    obtain ⟨t, us, rfl, ht, -, hone, hus⟩ := reads_comma h
    have hnot : ∀ u ∈ [t], u.depth = d → ∀ after, Clause.opened? u after = none :=
      List.forall_mem_singleton.2 fun _ => opened?_of_cell ht
    rw [← List.singleton_append, Clause.cut_append_of_not hnot]
    exact ⟨hone.concat (ih hus).1, (ih hus).2⟩
  | group inside rest _ ih =>
    obtain ⟨opening, us, closing, vs, rfl, hopening, hd, hus, hclosing, hd', hvs⟩ := reads_group h
    exact hgroup hopening hd hus hclosing hd' (ih hvs)
  | select word modifiers body rest _ ih =>
    obtain ⟨opening, us, closing, vs, rfl, hopening, hd, hus, hclosing, hd', hvs⟩ := reads_select h
    exact hgroup hopening hd hus hclosing hd' (ih hvs)

end Phrase

/-! ### What modifies a selection -/

/-- Whether tokens of the kind modify a `SELECT`, or count what a `TOP` takes. -/
def Modifies (kind : Kind) : Prop :=
  kind = .keyword .DISTINCT ∨ kind = .keyword .ALL ∨ kind = .keyword .TOP ∨ (∃ n, kind = .integer n) ∨
    ∃ x, kind = .float x

theorem modifies_of_isQuantifier (h : l.isQuantifier = true) : Modifies l.kind := by
  rw [Leaf.isQuantifier, Bool.or_eq_true, Leaf.isKeyword_iff, Leaf.isKeyword_iff] at h
  rcases h with h | h <;> simp [Modifies, h]

theorem kind_of_isNumber (h : l.isNumber = true) : (∃ n, l.kind = .integer n) ∨ ∃ x, l.kind = .float x := by
  unfold Leaf.isNumber at h
  split at h
  · next n hk => exact .inl ⟨n, hk⟩
  · next x hk => exact .inr ⟨x, hk⟩
  · cases h

theorem modifies_of_areModifiers (h : areModifiers modifiers = true) : ∀ l ∈ modifiers, Modifies l.kind := by
  have htop : ∀ {t n : Leaf}, (t.isKeyword .TOP && n.isNumber) = true → Modifies t.kind ∧ Modifies n.kind := by
    intro t n hboth
    rw [Bool.and_eq_true, Leaf.isKeyword_iff] at hboth
    exact ⟨.inr (.inr (.inl hboth.1)), .inr (.inr (.inr (kind_of_isNumber hboth.2)))⟩
  unfold areModifiers at h
  split at h
  · exact nofun
  · exact List.forall_mem_singleton.2 (modifies_of_isQuantifier h)
  · simp only [List.forall_mem_cons]
    exact ⟨(htop h).1, (htop h).2, nofun⟩
  · rw [Bool.and_eq_true] at h
    simp only [List.forall_mem_cons]
    exact ⟨modifies_of_isQuantifier h.1, (htop h.2).1, (htop h.2).2, nofun⟩
  · cases h

theorem modifies_of_reads (hm : areModifiers modifiers = true) (h : Reads d (modifiers.map Leaf.cell) ms) :
    ∀ t ∈ ms, Modifies t.kind := by
  intro t ht
  have hmem : t.cell ∈ modifiers.map Leaf.cell := h.cells ▸ List.mem_map_of_mem ht
  obtain ⟨l, hl, hcell⟩ := List.mem_map.1 hmem
  rw [← (Cell.token.inj hcell).1]
  exact modifies_of_areModifiers hm l hl

theorem Modifies.plain (h : Modifies t.kind) : aggregate? t = none ∧ t.isSymbol .dot = false ∧
    t.isSymbol .semicolon = false ∧ t.isKeyword .SELECT = false ∧ t.isKeyword .UNION = false ∧
    ∀ after, Clause.opened? t after = none := by
  unfold aggregate? Token.isSymbol Token.isKeyword Clause.opened?
  rcases h with h | h | h | ⟨n, h⟩ | ⟨x, h⟩ <;>
    · rw [h]
      exact ⟨rfl, rfl, rfl, rfl, rfl, fun _ => rfl⟩

/-- What modifies a `SELECT` is as long as it should be. -/
theorem modifierCount_of_reads (hm : areModifiers modifiers = true) (h : Reads d (modifiers.map Leaf.cell) ms)
    (hname : (aggregate? name).isSome = true) (ts : List Token) :
    Scope.modifierCount (ms ++ name :: ts) = ms.length := by
  have hnot : name.isKeyword .DISTINCT = false ∧ name.isKeyword .ALL = false ∧ name.isKeyword .TOP = false := by
    obtain ⟨k, hk⟩ := Option.isSome_iff_exists.1 hname
    obtain ⟨hkind, haggregate⟩ := kind_of_aggregate? hk
    rw [Token.isKeyword, Token.isKeyword, Token.isKeyword, hkind]
    cases k <;> first | exact ⟨rfl, rfl, rfl⟩ | cases haggregate
  have hkeyword : ∀ {t : Token} {l : Leaf} (k : Keyword), t.cell = l.cell → t.isKeyword k = l.isKeyword k := by
    intro t l k ht
    rw [Token.isKeyword, (Cell.token.inj ht).1, Leaf.isKeyword]
  have hcells := h.cells
  unfold areModifiers at hm
  split at hm
  · obtain rfl := List.map_eq_nil_iff.1 hcells
    simp [Scope.modifierCount, hnot]
  · obtain ⟨t, ms, rfl, ht, hms⟩ := List.map_eq_cons_iff.1 hcells
    obtain rfl := List.map_eq_nil_iff.1 hms
    have hquantifier : (t.isKeyword .DISTINCT || t.isKeyword .ALL) = true := by
      rwa [hkeyword _ ht, hkeyword _ ht]
    simp [Scope.modifierCount, hquantifier, hnot]
  · obtain ⟨t, ms, rfl, ht, hms⟩ := List.map_eq_cons_iff.1 hcells
    obtain ⟨u, ms, rfl, -, hms⟩ := List.map_eq_cons_iff.1 hms
    obtain rfl := List.map_eq_nil_iff.1 hms
    rw [Bool.and_eq_true] at hm
    have htop := hm.1
    rw [← hkeyword _ ht] at htop
    have hquantifier : t.isKeyword .DISTINCT = false ∧ t.isKeyword .ALL = false :=
      ⟨JoinChain.isKeyword_eq_false_of_ne htop (by decide), JoinChain.isKeyword_eq_false_of_ne htop (by decide)⟩
    simp [Scope.modifierCount, hquantifier, htop]
  · obtain ⟨t, ms, rfl, ht, hms⟩ := List.map_eq_cons_iff.1 hcells
    obtain ⟨u, ms, rfl, hu, hms⟩ := List.map_eq_cons_iff.1 hms
    obtain ⟨v, ms, rfl, -, hms⟩ := List.map_eq_cons_iff.1 hms
    obtain rfl := List.map_eq_nil_iff.1 hms
    rw [Bool.and_eq_true, Bool.and_eq_true] at hm
    have htop := hm.2.1
    rw [← hkeyword _ hu] at htop
    have hquantifier : (t.isKeyword .DISTINCT || t.isKeyword .ALL) = true := by
      rw [hkeyword _ ht, hkeyword _ ht]
      exact hm.1
    simp [Scope.modifierCount, hquantifier, htop]
  · cases hm

/-! ### The first call -/

/-- The aggregate, the call, the `DISTINCT` and what follows it, if the call is one over distinct values. -/
def distinctCall? (c : Call) : Option (Keyword × Call × Token × List Token) :=
  match aggregate? c.name, c.args with
  | some aggregate, distinct :: operand =>
    if distinct.isKeyword .DISTINCT then some (aggregate, c, distinct, operand) else none
  | _, _ => none

/-- The first call of an aggregate over distinct values in a stretch. -/
def first? (afterDot : Bool) (ts : List Token) : Option (Keyword × Call × Token × List Token) :=
  (Call.among (fun t => (aggregate? t).isSome) afterDot ts).findSome? distinctCall?

theorem firstCall?_eq (q : Query) : firstCall? q = first? false q.tokens :=
  rfl

theorem aggregate?_of_cell {c : Char} {s : Symbol} (h : t.cell = .token (.symbol s) [c]) : aggregate? t = none := by
  rw [aggregate?, (Cell.token.inj h).1]
  rfl

/-- What is no aggregate starts no call. -/
theorem first?_cons_of_none (h : aggregate? t = none) (f : Bool) (ts : List Token) :
    first? f (t :: ts) = first? (t.isSymbol .dot) ts := by
  have hnone : Call.atFront (fun t => (aggregate? t).isSome) (t :: ts) = none := by
    cases ts <;> simp [Call.atFront, h]
  rw [first?, Call.among, hnone]
  rfl

/-- Without a parenthesis behind it a token starts no call. -/
theorem first?_cons_of_head (h : ∀ u ∈ ts.head?, u.isSymbol .leftParen = false) (f : Bool) :
    first? f (t :: ts) = first? (t.isSymbol .dot) ts := by
  rw [first?, Call.among, Call.atFront_eq_none h]
  rfl

/-- What modifies a `SELECT` starts no call. -/
theorem first?_modifiers (h : ∀ t ∈ ms, Modifies t.kind) (ts : List Token) :
    first? false (ms ++ ts) = first? false ts := by
  induction ms with
  | nil => rfl
  | cons t ms ih =>
    obtain ⟨ht, hms⟩ := List.forall_mem_cons.1 h
    rw [List.cons_append, first?_cons_of_none ht.plain.1, ht.plain.2.1, ih hms]

/-- The first call of a group is that of what is inside, or else of what stands behind it. -/
theorem first?_parens (hus : Level (d + 1) us) (hopening : opening.cell = Cell.sign '(')
    (hclosing : closing.cell = Cell.sign ')') (f : Bool) (vs : List Token) :
    first? f (opening :: (us ++ closing :: vs)) = (first? false us).or (first? false vs) := by
  have hnone : ∀ {t : Token}, aggregate? t = none → (aggregate? t).isSome = false := by
    intro t ht
    rw [ht]
    rfl
  rw [first?, Call.among_group hus (Token.isSymbol_of_cell hopening) (Token.isSymbol_of_cell hclosing)
    (hnone (aggregate?_of_cell hopening)) (hnone (aggregate?_of_cell hclosing)), List.findSome?_append]
  rfl

/-- A call of an aggregate over distinct values is the first one. -/
theorem first?_call {aggregate : Keyword} (hus : Level (d + 1) (distinct :: us))
    (hopening : opening.cell = Cell.sign '(') (hd : opening.depth = d) (hclosing : closing.cell = Cell.sign ')')
    (hd' : closing.depth = d) (hname : aggregate? name = some aggregate)
    (hword : distinct.isKeyword .DISTINCT = true) (vs : List Token) :
    first? false (name :: opening :: (distinct :: us ++ closing :: vs))
      = some (aggregate, ⟨name, opening, distinct :: us, closing⟩, distinct, us) := by
  have hcall : Call.atFront (fun t => (aggregate? t).isSome)
      (name :: opening :: (distinct :: us ++ closing :: vs)) = _ :=
    Call.atFront_group hus (Token.isSymbol_of_cell hopening) hd (Token.isSymbol_of_cell hclosing) hd'
  rw [if_pos (by rw [hname]; rfl)] at hcall
  rw [first?, Call.among, hcall]
  show List.findSome? distinctCall? (_ :: _) = _
  rw [List.findSome?_cons, distinctCall?, hname]
  simp only [hword, if_true]

/-- A name before a group that is no call over distinct values. -/
theorem first?_name {f : Bool} (hus : Level (d + 1) us) (hopening : opening.cell = Cell.sign '(')
    (hd : opening.depth = d) (hclosing : closing.cell = Cell.sign ')') (hd' : closing.depth = d)
    (hnot : aggregate? name = none ∨ f = true ∨ (us.head?.any fun t => t.isKeyword .DISTINCT) = false)
    (vs : List Token) : first? f (name :: opening :: (us ++ closing :: vs))
      = first? (name.isSymbol .dot) (opening :: (us ++ closing :: vs)) := by
  have hcall : Call.atFront (fun t => (aggregate? t).isSome) (name :: opening :: (us ++ closing :: vs)) = _ :=
    Call.atFront_group hus (Token.isSymbol_of_cell hopening) hd (Token.isSymbol_of_cell hclosing) hd'
  rw [first?, Call.among, hcall]
  rcases hnot with hnot | rfl | hnot
  · rw [if_neg (by rw [hnot]; exact Bool.false_ne_true)]
    rfl
  · split
    · next h =>
      split at h
      · cases h
        rfl
      · cases h
    · rfl
  · cases haggregate : aggregate? name with
    | none => rfl
    | some aggregate =>
      cases f with
      | true => rfl
      | false =>
        show List.findSome? distinctCall? (_ :: _) = _
        rw [List.findSome?_cons]
        have hnone : distinctCall? ⟨name, opening, us, closing⟩ = none := by
          rw [distinctCall?, haggregate]
          cases us with
          | nil => rfl
          | cons u us =>
            have hu : u.isKeyword .DISTINCT = false := hnot
            simp only [hu, Bool.false_eq_true, if_false]
        rw [hnone]
        rfl

/-! ### Calls that do not start a selection -/

/-- Whether a stretch ends with a `SELECT` and words that may modify it. -/
def Opens (ts : List Token) : Prop :=
  ∃ us select ms, ts = us ++ select :: ms ∧ select.isKeyword .SELECT = true ∧
    (ms = [] ∨ (∃ t, ms = [t] ∧ (t.isKeyword .DISTINCT || t.isKeyword .ALL) = true) ∨
      (∃ t u, ms = [t, u] ∧ t.isKeyword .TOP = true) ∨ ∃ t u v, ms = [t, u, v] ∧ u.isKeyword .TOP = true)

/-- Whether a stretch does not end with a `TOP`. -/
def Counted (ts : List Token) : Prop :=
  ∀ t ∈ ts.getLast?, t.isKeyword .TOP = false

theorem counted_concat (h : t.isKeyword .TOP = false) (ts : List Token) : Counted (ts ++ [t]) := by
  intro u hu
  rw [List.getLast?_concat] at hu
  obtain rfl := Option.some.inj hu
  exact h

/-- A token that is no `SELECT` and modifies none ends what a `SELECT` starts. -/
theorem not_opens_concat (hselect : t.isKeyword .SELECT = false) (htop : Counted ts)
    (hword : (t.isKeyword .DISTINCT || t.isKeyword .ALL) = true → ∀ s ∈ ts.getLast?, s.isKeyword .SELECT = false) :
    ¬ Opens (ts ++ [t]) := by
  rintro ⟨us, select, ms, heq, hs, hms⟩
  rcases hms with rfl | ⟨u, rfl, hu⟩ | ⟨u, v, rfl, hu⟩ | ⟨u, v, w, rfl, hv⟩
  · obtain ⟨-, h⟩ := List.append_inj' heq rfl
    obtain rfl := List.singleton_inj.1 h
    rw [hs] at hselect
    cases hselect
  · have hall : ts ++ [t] = (us ++ [select]) ++ [u] := by rw [heq]; simp
    obtain ⟨rfl, h⟩ := List.append_inj' hall rfl
    obtain rfl := List.singleton_inj.1 h
    have := hword hu select (by simp)
    rw [hs] at this
    cases this
  · have hall : ts ++ [t] = (us ++ [select, u]) ++ [v] := by rw [heq]; simp
    obtain ⟨rfl, -⟩ := List.append_inj' hall rfl
    have := htop u (by simp)
    rw [hu] at this
    cases this
  · have hall : ts ++ [t] = (us ++ [select, u, v]) ++ [w] := by rw [heq]; simp
    obtain ⟨rfl, -⟩ := List.append_inj' hall rfl
    have := htop v (by simp)
    rw [hv] at this
    cases this

/-- What modifies a `SELECT` before something else. -/
theorem opens_take {us : List Token} {select : Token} (hs : select.isKeyword .SELECT = true) {ms rest : List Token}
    (hms : ms = (ms ++ rest).take (Scope.modifierCount (ms ++ rest))) (hne : rest ≠ []) :
    Opens (us ++ select :: ms) := by
  refine ⟨us, select, ms, rfl, hs, ?_⟩
  have hlen : ms.length = Scope.modifierCount (ms ++ rest) := by
    have hlength := congrArg List.length hms
    rw [List.length_take, List.length_append] at hlength
    have hpos := List.length_pos_of_ne_nil hne
    omega
  rw [Scope.modifierCount] at hlen
  by_cases hquantifier : ((ms ++ rest).head?.any fun t => t.isKeyword .DISTINCT || t.isKeyword .ALL) = true
  · simp only [hquantifier, if_true] at hlen
    split at hlen
    · next htop =>
      obtain ⟨t, u, v, rfl⟩ := List.length_eq_three.1 hlen
      exact .inr (.inr (.inr ⟨t, u, v, rfl, by simpa using htop⟩))
    · obtain ⟨t, rfl⟩ := List.length_eq_one_iff.1 hlen
      exact .inr (.inl ⟨t, rfl, by simpa using hquantifier⟩)
  · simp only [hquantifier, Bool.false_eq_true, if_false] at hlen
    split at hlen
    · next htop =>
      obtain ⟨t, u, rfl⟩ := List.length_eq_two.1 hlen
      exact .inr (.inr (.inl ⟨t, u, rfl, by simpa using htop⟩))
    · exact .inl (List.length_eq_zero_iff.1 hlen)

/-- The scope around a call is changed only if the call stands directly behind a `SELECT` and what modifies it. -/
theorem opens_of_scopeEdit {q : Query} {tail : List Cell} {c : Call} {operand front back : List Token} {e : Edit}
    (h : q.IsRead tail) (hc : c ∈ q.calls fun t => (aggregate? t).isSome) (he : scopeEdit q c operand = .ok e)
    (hq : q.tokens = front ++ c.name :: back) : Opens front := by
  obtain ⟨scope, item, call, named, tables, hscope, hitems, hcall, htables, -, -⟩ := scopeEdit_eq_ok he
  obtain ⟨as, bs, stop, htokens, -, -, -, hmodifiers, hselect⟩ := h.scope (s := scope) (by
    simpa using List.mem_of_find?_eq_some hscope)
  obtain ⟨behind, hbody, -, rfl, -, -⟩ := body_eq h hc hscope hitems hcall htables
  have hfront : q.tokens = (as ++ scope.select :: scope.modifiers) ++
      call.name :: (call.tokens.tail ++ (named ++ behind) ++ bs) := by
    rw [htokens, hbody, Call.tokens]
    simp
  obtain ⟨rfl, -⟩ := h.append_cons_inj hq hfront
  have htake : scope.modifiers = (scope.modifiers ++ (call.tokens ++ (named ++ behind))).take
      (Scope.modifierCount (scope.modifiers ++ (call.tokens ++ (named ++ behind)))) := by
    rw [← hbody, ← hmodifiers]
  refine opens_take hselect htake ?_
  rw [Call.tokens]
  exact List.cons_ne_nil _ _

end Distinct

end JetAdapter
