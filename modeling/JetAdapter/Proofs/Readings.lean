import JetAdapter.Proofs.Literals
import JetAdapter.Proofs.Progress
import JetAdapter.Proofs.Retelling

/-!
# Readings of cells

What a query is made of shows in the cells of its tokens: the depths are those of matching parentheses, so they are known
when the cells are.  `Token.Reads d cs ts` says that the tokens `ts` have the cells `cs` and stand, all together, at the
depth `d`.  Where the cells fall apart into balanced parts, so do the tokens (`Token.Reads.append`, `Token.Reads.group`).

An edit of a stretch puts cells in the place of others (`Query.IsRead.edited`), and what comes out is a query again if the
parentheses match.
-/

namespace JetAdapter

open Token (Level Run stretch)

/-! ### Kinds of cells -/

namespace Cell

variable {cs : List Cell}

@[simp] theorem kinds_filter_isToken (cs : List Cell) : kinds (cs.filter isToken) = kinds cs := by
  induction cs with
  | nil => rfl
  | cons c cs ih =>
    cases c with
    | gap g => exact ih
    | token k t =>
      show k :: kinds (cs.filter isToken) = k :: kinds cs
      rw [ih]

@[simp] theorem filter_isToken_ofGap (g : SqlText) : (ofGap g).filter isToken = [] := by
  unfold ofGap
  split
  · rfl
  · rfl

theorem kind_lexemes (g : SqlText) (cs : List Cell) : (lexemes g cs).map Lexeme.kind = kinds cs ++ [.eof] := by
  induction cs generalizing g with
  | nil => rfl
  | cons c cs ih =>
    cases c with
    | gap g' => exact ih (g ++ g')
    | token k t =>
      show k :: (lexemes [] cs).map Lexeme.kind = k :: (kinds cs ++ [.eof])
      rw [ih]

theorem isFault_kinds (h : ∀ c ∈ cs, c.isFault = false) : ∀ k ∈ kinds cs, k.isFault = false := by
  intro k hk
  obtain ⟨c, hc, hk⟩ := List.mem_filterMap.1 hk
  cases c with
  | gap g => cases hk
  | token k' w =>
    obtain rfl : k' = k := by simpa using hk
    exact h _ hc

/-- A parenthesis is written in one way. -/
theorem Fits.eq_sign {k : Kind} {t rest : SqlText} (h : (token k t).Fits rest) :
    (k = .symbol .leftParen → token k t = sign '(') ∧ (k = .symbol .rightParen → token k t = sign ')') ∧
      (k = .symbol .comma → token k t = sign ',') := by
  refine ⟨?_, ?_, ?_⟩
  · rintro rfl
    rw [(text_of_symbol h).1 rfl]
    rfl
  · rintro rfl
    rw [(text_of_symbol h).2.1 rfl]
    rfl
  · rintro rfl
    rw [(text_of_symbol h).2.2.1 rfl]
    rfl

end Cell

/-- A text whose cells have no faults and matching parentheses is read as a query. -/
theorem Query.exists_of_balanced {text : SqlText} (hf : ∀ k ∈ Cell.kinds (Cell.ofText text), k.isFault = false)
    (hb : Balanced (Cell.kinds (Cell.ofText text))) : ∃ q, ofText text = .ok q := by
  have hkinds : (lex text).map Lexeme.kind = Cell.kinds (Cell.ofText text) ++ [.eof] := by
    have hlex := (Cell.sound_ofText text).lex_spell
    rw [Cell.spell_ofText] at hlex
    rw [hlex, Cell.kind_lexemes]
  refine (ofText_isOk_iff text).2 ⟨fun l hl => ?_, ?_⟩
  · have hmem : l.kind ∈ Cell.kinds (Cell.ofText text) ++ [.eof] := hkinds ▸ List.mem_map_of_mem hl
    rcases List.mem_append.1 hmem with hk | hk
    · exact hf _ hk
    · rw [List.mem_singleton.1 hk]
      rfl
  · rw [hkinds]
    exact hb.append (.plain nofun nofun .nil)

/-! ### Splitting -/

namespace Token

variable {p : Token → Bool} {as bs after before : List Token} {t found : Token}

theorem splitFirst_append_of_not {a b : List Token} (ha : ∀ t ∈ a, p t = false) (ht : p t = true) :
    splitFirst p (a ++ t :: b) = some (a, t, b) := by
  induction a with
  | nil => rw [List.nil_append, splitFirst, if_pos ht]
  | cons a as ih =>
    obtain ⟨hnot, ha⟩ := List.forall_mem_cons.1 ha
    rw [List.cons_append, splitFirst, if_neg (by simp [hnot]), ih ha]
    rfl

theorem splitFirst_append (h : splitFirst p as = some (before, found, after)) :
    splitFirst p (as ++ bs) = some (before, found, after ++ bs) := by
  obtain ⟨rfl, hfound, hbefore⟩ := splitFirst_eq_some h
  rw [List.append_assoc, List.cons_append]
  exact splitFirst_append_of_not (fun t ht => Bool.eq_false_iff.2 (hbefore t ht)) hfound

theorem splitFirst_of_not (h : ∀ t ∈ as, p t = false) : splitFirst p as = none := by
  cases hs : splitFirst p as with
  | none => rfl
  | some x =>
    obtain ⟨before, found, after⟩ := x
    obtain ⟨rfl, hfound, -⟩ := splitFirst_eq_some hs
    rw [h found (by simp)] at hfound
    cases hfound

theorem splitLast_append_of_not {a b : List Token} (ht : p t = true) (hb : ∀ u ∈ b, p u = false) :
    splitLast p (a ++ t :: b) = some (a, t, b) := by
  have hrev := splitFirst_append_of_not (a := b.reverse) (b := a.reverse) (by simpa using hb) ht
  rw [splitLast, List.reverse_append, List.reverse_cons, List.append_assoc, List.singleton_append, hrev]
  simp

end Token

/-! ### Tokens at a depth -/

namespace Token

variable {as bs ts us : List Token} {t : Token} {ks : List Kind} {d e : Nat}

theorem isSymbol_of_cell {c : Char} {s : Symbol} (h : t.cell = .token (.symbol s) [c]) : t.isSymbol s = true := by
  rw [isSymbol, (Cell.token.inj h).1, Kind.isSymbol, decide_eq_true_iff]

/-- A run over matching parentheses comes back to where it starts, and never goes below. -/
theorem Run.level (hb : Balanced ks) (hks : ts.map (·.kind) = ks) (h : Run d ts e) : e = d ∧ Level d ts := by
  induction hb generalizing ts d e with
  | nil =>
    obtain rfl := List.map_eq_nil_iff.1 hks
    cases h
    exact ⟨rfl, .nil⟩
  | plain left right _ ih =>
    obtain ⟨t, ts, rfl, rfl, hrest⟩ := List.map_eq_cons_iff.1 hks
    obtain ⟨hd, h⟩ := h.of_cons (by simpa [isSymbol, Kind.isSymbol] using left)
      (by simpa [isSymbol, Kind.isSymbol] using right)
    obtain ⟨rfl, hlevel⟩ := ih hrest h
    refine ⟨rfl, .plain ?_ ?_ hd hlevel.run, List.forall_mem_cons.2 ⟨Nat.le_of_eq hd.symm, hlevel.le⟩⟩
    · simpa [isSymbol, Kind.isSymbol] using left
    · simpa [isSymbol, Kind.isSymbol] using right
  | group _ _ ihInside ihBehind =>
    obtain ⟨opening, ts, rfl, hopening, hrest⟩ := List.map_eq_cons_iff.1 hks
    obtain ⟨inside, ts, rfl, hinside, hrest⟩ := List.map_eq_append_iff.1 hrest
    obtain ⟨closing, behind, rfl, hclosing, hbehind⟩ := List.map_eq_cons_iff.1 hrest
    have hleft : opening.isSymbol .leftParen = true := by simp [isSymbol, Kind.isSymbol, hopening]
    have hright : closing.isSymbol .rightParen = true := by simp [isSymbol, Kind.isSymbol, hclosing]
    cases h with
    | closing paren => simp [isSymbol_eq_false_of_isSymbol hleft] at paren
    | plain left => simp [hleft] at left
    | opening _ hd rest =>
      obtain ⟨f, hrun, hrest⟩ := rest.of_append
      obtain ⟨rfl, hlevel⟩ := ihInside hinside hrun
      cases hrest with
      | opening paren => simp [isSymbol_eq_false_of_isSymbol hright] at paren
      | plain _ right => simp [hright] at right
      | closing _ hd' rest =>
        obtain ⟨rfl, hlevel'⟩ := ihBehind hbehind rest
        refine ⟨rfl, .opening hleft hd (hlevel.run.append (.closing hright hd' hlevel'.run)), ?_⟩
        simp only [List.forall_mem_cons, List.forall_mem_append]
        exact ⟨Nat.le_of_eq hd.symm, fun t ht => Nat.le_of_succ_le (hlevel.le t ht), Nat.le_of_eq hd'.symm, hlevel'.le⟩

/-- A level stretch falls apart behind matching parentheses. -/
theorem Level.split_balanced (h : Level d (as ++ bs)) (hb : Balanced (as.map (·.kind))) : Level d as ∧ Level d bs := by
  obtain ⟨e, hrun, -⟩ := h.run.of_append
  have has := (hrun.level hb rfl).2
  exact ⟨has, h.of_append has⟩

/-- A level stretch that starts with a group in parentheses. -/
theorem Level.group {ls : List Kind} (h : Level d ts)
    (hk : ts.map (·.kind) = .symbol .leftParen :: (ks ++ .symbol .rightParen :: ls)) (hb : Balanced ks) :
    ∃ opening us closing vs, ts = opening :: (us ++ closing :: vs) ∧ opening.isSymbol .leftParen = true ∧
      opening.depth = d ∧ Level (d + 1) us ∧ us.map (·.kind) = ks ∧ closing.isSymbol .rightParen = true ∧
      closing.depth = d ∧ Level d vs ∧ vs.map (·.kind) = ls := by
  obtain ⟨opening, ts, rfl, hopening, hrest⟩ := List.map_eq_cons_iff.1 hk
  obtain ⟨us, ts, rfl, hus, hrest⟩ := List.map_eq_append_iff.1 hrest
  obtain ⟨closing, vs, rfl, hclosing, hvs⟩ := List.map_eq_cons_iff.1 hrest
  have hleft : opening.isSymbol .leftParen = true := by simp [isSymbol, Kind.isSymbol, hopening]
  have hright : closing.isSymbol .rightParen = true := by simp [isSymbol, Kind.isSymbol, hclosing]
  obtain ⟨-, hle⟩ := List.forall_mem_cons.1 h.le
  cases h.run with
  | closing paren => simp [isSymbol_eq_false_of_isSymbol hleft] at paren
  | plain left => simp [hleft] at left
  | opening _ hd rest =>
    obtain ⟨f, hrun, hrest⟩ := rest.of_append
    obtain ⟨rfl, hinside⟩ := hrun.level hb hus
    cases hrest with
    | opening paren => simp [isSymbol_eq_false_of_isSymbol hright] at paren
    | plain _ right => simp [hright] at right
    | closing _ hd' rest =>
      refine ⟨opening, us, closing, vs, rfl, hleft, hd, hinside, hus, hright, hd', ⟨rest, fun t ht => ?_⟩, hvs⟩
      exact hle t (by simp [ht])

/-- The first `)` of the depth before a level stretch is the one that closes it. -/
theorem splitFirst_closing {inside rest : List Token} {closing : Token} (hinside : Level (d + 1) inside)
    (hright : closing.isSymbol .rightParen = true) (hd : closing.depth = d) :
    splitFirst (isSymbolAt d .rightParen) (inside ++ closing :: rest) = some (inside, closing, rest) := by
  refine splitFirst_append_of_not (fun t ht => ?_) ?_
  · have hle := hinside.le t ht
    have hne : t.depth ≠ d := by omega
    simp [isSymbolAt, hne]
  · rw [isSymbolAt, hd, beq_self_eq_true, hright]
    rfl

@[simp] theorem kinds_map_cell (ts : List Token) : Cell.kinds (ts.map cell) = ts.map (·.kind) := by
  induction ts with
  | nil => rfl
  | cons t ts ih =>
    rw [List.map_cons, cell, Cell.kinds_token, ih]
    rfl

@[simp] theorem filter_isToken_stretch (ts : List Token) : (stretch ts).filter Cell.isToken = ts.map cell := by
  rw [filter_stretch (fun _ => rfl), List.filter_eq_self]
  intro c hc
  obtain ⟨t, -, rfl⟩ := List.mem_map.1 hc
  rfl

/-- Whether tokens have these cells and stand, all together, at a depth. -/
structure Reads (d : Nat) (cs : List Cell) (ts : List Token) : Prop where
  level : Level d ts
  cells : ts.map cell = cs

namespace Reads

variable {cs ds : List Cell} {k : Kind} {w : SqlText}

theorem nil_iff : Reads d [] ts ↔ ts = [] := by
  constructor
  · exact fun h => List.map_eq_nil_iff.1 h.cells
  · rintro rfl
    exact ⟨.nil, rfl⟩

theorem kinds (h : Reads d cs ts) : ts.map (·.kind) = Cell.kinds cs := by
  rw [← h.cells, kinds_map_cell]

theorem append (h : Reads d (cs ++ ds) ts) (hb : Balanced (Cell.kinds cs)) :
    ∃ us vs, ts = us ++ vs ∧ Reads d cs us ∧ Reads d ds vs := by
  obtain ⟨us, vs, rfl, hus, hvs⟩ := List.map_eq_append_iff.1 h.cells
  rw [← hus, kinds_map_cell] at hb
  obtain ⟨hlus, hlvs⟩ := h.level.split_balanced hb
  exact ⟨us, vs, rfl, ⟨hlus, hus⟩, hlvs, hvs⟩

/-- A token that is no parenthesis. -/
theorem cons (h : Reads d (.token k w :: cs) ts) (left : k ≠ .symbol .leftParen) (right : k ≠ .symbol .rightParen) :
    ∃ t us, ts = t :: us ∧ t.kind = k ∧ t.text = w ∧ t.depth = d ∧ Reads d cs us := by
  have hcons : Reads d ([.token k w] ++ cs) ts := h
  obtain ⟨us, vs, rfl, hus, hvs⟩ := hcons.append (.plain left right .nil)
  obtain ⟨t, us, rfl, ht, hnil⟩ := List.map_eq_cons_iff.1 hus.cells
  obtain rfl := List.map_eq_nil_iff.1 hnil
  obtain ⟨hk, hw⟩ := Cell.token.inj ht
  exact ⟨t, vs, rfl, hk, hw, hus.level.depth_first, hvs⟩

/-- A group in parentheses. -/
theorem group (h : Reads d (Cell.sign '(' :: (cs ++ Cell.sign ')' :: ds)) ts) (hb : Balanced (Cell.kinds cs)) :
    ∃ opening us closing vs, ts = opening :: (us ++ closing :: vs) ∧ opening.cell = Cell.sign '(' ∧ opening.depth = d ∧
      Reads (d + 1) cs us ∧ closing.cell = Cell.sign ')' ∧ closing.depth = d ∧ Reads d ds vs := by
  obtain ⟨opening, ts, rfl, hopening, hrest⟩ := List.map_eq_cons_iff.1 h.cells
  obtain ⟨us, ts, rfl, rfl, hbehind⟩ := List.map_eq_append_iff.1 hrest
  obtain ⟨closing, vs, rfl, hclosing, rfl⟩ := List.map_eq_cons_iff.1 hbehind
  have hkinds : (opening :: (us ++ closing :: vs)).map (·.kind)
      = .symbol .leftParen :: (Cell.kinds (us.map cell) ++ .symbol .rightParen :: Cell.kinds (vs.map cell)) := by
    rw [h.kinds]
    exact congrArg _ (Cell.kinds_append ..)
  obtain ⟨opening', us', closing', vs', heq, -, hd, hinside, hus', -, hd', hbehind, -⟩ := h.level.group hkinds hb
  obtain ⟨rfl, htail⟩ := List.cons.inj heq
  rw [kinds_map_cell] at hus'
  obtain ⟨rfl, hend⟩ := List.append_inj htail (by simpa using (congrArg List.length hus').symm)
  obtain ⟨rfl, rfl⟩ := List.cons.inj hend
  exact ⟨opening, us, closing, vs, rfl, hopening, hd, ⟨hinside, rfl⟩, hclosing, hd', hbehind, rfl⟩

end Reads

end Token

/-! ### Queries -/

namespace Query

variable {q : Query} {text : SqlText} {tail N : List Cell} {as bs ts : List Token} {t : Token}

theorem IsRead.filter_cells (h : q.IsRead tail) (ts : List Token) :
    (Token.cells ts ++ tail).filter Cell.isToken = ts.map Token.cell := by
  have htail : tail.filter Cell.isToken = [] := by
    rcases h.tail with rfl | ⟨g, rfl⟩
    · rfl
    · rfl
  rw [List.filter_append, htail, List.append_nil]
  induction ts with
  | nil => rfl
  | cons t ts ih =>
    rw [Token.cells_cons, List.filter_append, Cell.filter_isToken_ofGap, List.nil_append, List.filter_cons_of_pos rfl, ih, List.map_cons]

/-- The tokens of a text that is read as a query. -/
theorem reads (h : ofText text = .ok q) : Token.Reads 0 ((Cell.ofText text).filter Cell.isToken) q.tokens := by
  obtain ⟨rfl, tail, hread⟩ := isRead h
  refine ⟨⟨Token.nested_iff_run.1 hread.nested, fun t _ => Nat.zero_le _⟩, ?_⟩
  rw [hread.cells, hread.filter_cells]

/-- A query of which something is known. -/
theorem exists_of_map {α : Type} (text : SqlText) (f : Query → α) (a : α) (h : (ofText text).toOption.map f = some a) :
    ∃ q, ofText text = .ok q ∧ f q = a := by
  obtain ⟨q, hq, hcs⟩ := Option.map_eq_some_iff.1 h
  cases hall : ofText text with
  | ok q' =>
    rw [hall] at hq
    exact ⟨q, congrArg _ (Option.some.inj hq), hcs⟩
  | error err =>
    rw [hall] at hq
    cases hq

/-- A query whose cells are known. -/
theorem exists_of_cells (text : SqlText) (cs : List Cell)
    (h : (ofText text).toOption.map (fun q => q.tokens.map Token.cell) = some cs) :
    ∃ q, ofText text = .ok q ∧ q.tokens.map Token.cell = cs :=
  exists_of_map text _ cs h

/-- A text is read by the cells of its tokens. -/
theorem exists_of_filter {cs : List Cell} (hcs : (Cell.ofText text).filter Cell.isToken = cs)
    (hf : ∀ k ∈ Cell.kinds cs, k.isFault = false) (hb : Balanced (Cell.kinds cs)) :
    ∃ q, ofText text = .ok q ∧ Token.Reads 0 cs q.tokens := by
  rw [← hcs, Cell.kinds_filter_isToken] at hf hb
  obtain ⟨q, hq⟩ := exists_of_balanced hf hb
  exact ⟨q, hq, hcs ▸ reads hq⟩

/-- What an edit makes of a text, if what it writes is read as it stands.  Some cells `K` before those that are replaced
may count as replaced. -/
theorem IsRead.edited_of_settles {X K D Y ss : List Cell} (h : q.IsRead tail) {start stop : Nat}
    (hcells : Token.cells q.tokens ++ tail = X ++ (K ++ (D ++ Y))) (hne : K ++ (D ++ Y) ≠ [])
    (hstart : start = Text.byteSize (Cell.spell (X ++ K))) (hstop : stop = Text.byteSize (Cell.spell (X ++ (K ++ D))))
    (hset : Cell.Settles Cell.isToken (K ++ (N ++ Y)) ss) (hr : Cell.Replaces (K ++ (D ++ Y)) ss) :
    ∃ out, Edit.applyAll [⟨⟨start, stop⟩, Cell.spell N⟩] q.text = .ok out ∧
      (Cell.ofText out).filter Cell.isToken = (X ++ (K ++ (N ++ Y))).filter Cell.isToken := by
  have hsound := h.sound
  have hf := h.isFault
  rw [hcells] at hsound hf
  refine ⟨Cell.spell (X ++ (K ++ (N ++ Y))), ?_, ?_⟩
  · have hone := Edit.eq_of_applyAll_one (X := X ++ K) (D := D) (Y := Y) (N := N) (e := ⟨⟨start, stop⟩, Cell.spell N⟩) hstart
      (by rw [List.append_assoc]; exact hstop) rfl
    rw [List.append_assoc, ← hcells, h.spell, List.append_assoc] at hone
    exact hone
  obtain ⟨ss', hset', -⟩ := hset.keep_all hsound (fun c hc => hf c (List.mem_append_left _ hc)) hne hr
  rw [← hset'.spelled, hset'.sound.ofText_spell]
  refine hset'.filter (fun _ => rfl) fun c _ hc => ?_
  cases c with
  | gap g => cases hc
  | token k t => rfl

/-- What an edit makes of a text is read as a query, if the parentheses match and what it writes has no faults. -/
theorem IsRead.reads_settled {X K D Y ss : List Cell} (cs : List Cell) (h : q.IsRead tail) {start stop : Nat}
    (hcells : Token.cells q.tokens ++ tail = X ++ (K ++ (D ++ Y))) (hne : K ++ (D ++ Y) ≠ [])
    (hstart : start = Text.byteSize (Cell.spell (X ++ K))) (hstop : stop = Text.byteSize (Cell.spell (X ++ (K ++ D))))
    (hset : Cell.Settles Cell.isToken (K ++ (N ++ Y)) ss) (hr : Cell.Replaces (K ++ (D ++ Y)) ss)
    (hN : ∀ c ∈ N, c.isFault = false) (hcs : (X ++ (K ++ (N ++ Y))).filter Cell.isToken = cs)
    (hb : Balanced (Cell.kinds cs)) :
    ∃ out q', Edit.applyAll [⟨⟨start, stop⟩, Cell.spell N⟩] q.text = .ok out ∧ ofText out = .ok q' ∧
      Token.Reads 0 cs q'.tokens := by
  obtain ⟨out, hout, hfilter⟩ := h.edited_of_settles hcells hne hstart hstop hset hr
  have hplain : ∀ c ∈ X ++ (K ++ (N ++ Y)), c.isFault = false := by
    have hf := h.isFault
    rw [hcells] at hf
    simp only [List.forall_mem_append] at hf ⊢
    exact ⟨hf.1, hf.2.1, hN, hf.2.2.2⟩
  have hf : ∀ k ∈ Cell.kinds cs, k.isFault = false := by
    rw [← hcs, Cell.kinds_filter_isToken]
    exact Cell.isFault_kinds hplain
  obtain ⟨q', hq', hreads⟩ := exists_of_filter (hfilter.trans hcs) hf hb
  exact ⟨out, q', hout, hq', hreads⟩

/-- What the edit of a stretch makes of a text, if it makes a swap that is harmless to all tokens and brings in nothing
odd. -/
theorem IsRead.reads_edited {R : Swap} (cs : List Cell) (h : q.IsRead tail) (hq : q.tokens = as ++ (t :: ts ++ bs))
    (hR : Woven.Harmless Cell.isToken R)
    (hsw : R (Token.cells as ++ Cell.ofGap t.gap) (stretch (t :: ts)) (Token.cells bs ++ tail) N) (hdraws : R.Draws)
    (hcs : as.map Token.cell ++ (N.filter Cell.isToken ++ bs.map Token.cell) = cs) (hb : Balanced (Cell.kinds cs)) :
    ∃ out q', Edit.applyAll [⟨⟨t.start, Token.stopOr 0 (t :: ts)⟩, Cell.spell N⟩] q.text = .ok out ∧
      ofText out = .ok q' ∧ Token.Reads 0 cs q'.tokens := by
  obtain ⟨hcells, hstart, hstop⟩ := h.split hq
  have hsound := h.sound
  have hf := h.isFault
  rw [hcells] at hsound hf
  have hbehind : Cell.Sound (Token.cells bs ++ tail) := by
    rw [← List.append_assoc] at hsound
    exact hsound.of_append
  obtain ⟨ss, hset, hr⟩ := hR.settles hsw hsound hf (.refl hbehind) ⟨.refl _, .inl⟩
  refine h.reads_settled (K := []) cs hcells ?_ (by rw [List.append_nil, hstart]) (hstop 0) hset hr (fun c hc => ?_) ?_ hb
  · simp
  · rcases hdraws hsw c hc with hmem | hnew
    · exact hf c hmem
    · exact hnew _ Cell.spares_isFault
  · have hfront := h.filter_cells as
    have htail : tail.filter Cell.isToken = [] := h.filter_cells []
    rw [List.filter_append, htail, List.append_nil] at hfront
    rw [List.nil_append, List.filter_append, List.filter_append, List.filter_append, Cell.filter_isToken_ofGap,
      h.filter_cells bs, hfront, List.append_nil, hcs]

end Query

end JetAdapter
