import JetAdapter.Proofs.Weaving
import JetAdapter.Query.Scope

/-!
# Stretches of a query

A query is read from a text, so the text has the cells of the tokens and perhaps a gap at the end, the tokens
stand where their starts say, and the depths are those of matching parentheses (`Query.IsRead`).  A stretch of
its tokens is a stretch of the cells, from the start of the first token to the end of the last one
(`Query.IsRead.split`).

The parts that rules look for are such stretches: the arguments of a call, the pieces between commas, the
clauses of a scope.  Here stands what comes before and behind each of them.
-/

namespace JetAdapter

open Cell (Sound spell ofGap)

/-! ### Computations that can fail -/

theorem Except.bind_eq_ok {ε α β : Type} {x : Except ε α} {f : α → Except ε β} {b : β}
    (h : x >>= f = .ok b) : ∃ a, x = .ok a ∧ f a = .ok b := by
  cases x with
  | error e => cases h
  | ok a => exact ⟨a, rfl, h⟩

theorem Except.mem_of_mapM_eq_ok {α β ε : Type} {f : α → Except ε β} {xs : List α} {ys : List β}
    (h : xs.mapM f = .ok ys) : ∀ y ∈ ys, ∃ x ∈ xs, f x = .ok y := by
  induction xs generalizing ys with
  | nil =>
    cases h
    exact nofun
  | cons x xs ih =>
    rw [List.mapM_cons] at h
    obtain ⟨y, hy, h⟩ := Except.bind_eq_ok h
    obtain ⟨ys', hys, h⟩ := Except.bind_eq_ok h
    cases h
    intro z hz
    rcases List.mem_cons.1 hz with rfl | hz
    · exact ⟨x, List.mem_cons_self, hy⟩
    · obtain ⟨x', hx', hfx'⟩ := ih hys z hz
      exact ⟨x', List.mem_cons_of_mem _ hx', hfx'⟩

namespace Token

variable {as bs ts us : List Token} {t u : Token} {d o : Nat}

/-! ### Cells -/

/-- The cell of a token. -/
def cell (t : Token) : Cell :=
  .token t.kind t.text

/-- The cells of tokens, each with the gap before it. -/
def cells (ts : List Token) : List Cell :=
  ts.flatMap fun t => ofGap t.gap ++ [t.cell]

/-- The cells of a stretch of tokens from the first spelling to the last. -/
def stretch : List Token → List Cell
  | [] => []
  | t :: ts => t.cell :: cells ts

@[simp] theorem cells_nil : cells [] = [] := rfl

@[simp] theorem cells_cons (t : Token) (ts : List Token) :
    cells (t :: ts) = ofGap t.gap ++ (t.cell :: cells ts) := by
  simp [cells]

@[simp] theorem cells_append (ts us : List Token) : cells (ts ++ us) = cells ts ++ cells us :=
  List.flatMap_append

@[simp] theorem stretch_cons (t : Token) (ts : List Token) : stretch (t :: ts) = t.cell :: cells ts :=
  rfl

@[simp] theorem text_cell (t : Token) : t.cell.text = t.text := rfl

theorem spell_cells (ts : List Token) : Cell.spell (cells ts) = ts.flatMap fun t => t.gap ++ t.text := by
  induction ts with
  | nil => rfl
  | cons t ts ih => simp [ih]

/-- The text of a stretch is spelled by its cells. -/
theorem spell_stretch (ts : List Token) : Cell.spell (stretch ts) = Token.spell ts := by
  cases ts with
  | nil => rfl
  | cons t ts => rw [stretch_cons, Cell.spell_cons, spell_cells, Token.spell, text_cell]

theorem getLast?_cells (ts : List Token) : (cells ts).getLast? = ts.getLast?.map cell := by
  rcases List.eq_nil_or_concat ts with rfl | ⟨ts, t, rfl⟩
  · rfl
  · simp

theorem getLast?_stretch (ts : List Token) : (stretch ts).getLast? = ts.getLast?.map cell := by
  cases ts with
  | nil => rfl
  | cons t ts =>
    rcases List.eq_nil_or_concat ts with rfl | ⟨ts, u, rfl⟩
    · rfl
    · simp [List.getLast?_cons]

theorem isGap_getLast?_stretch (ts : List Token) :
    (stretch ts).getLast?.any Cell.isGap = false := by
  rw [getLast?_stretch]
  cases ts.getLast? with
  | none => rfl
  | some t => rfl

theorem isGap_getLast?_append_stretch (cs : List Cell) (t : Token) (ts : List Token) :
    (cs ++ stretch (t :: ts)).getLast?.any Cell.isGap = false := by
  rcases List.eq_nil_or_concat ts with rfl | ⟨ts, u, rfl⟩
  · rw [stretch_cons, cells_nil, List.getLast?_concat]
    rfl
  · rw [stretch_cons, List.concat_eq_append, cells_append, cells_cons, cells_nil, ← List.cons_append,
      ← List.append_assoc, ← List.append_assoc, List.getLast?_concat]
    rfl

/-- A stretch ends with a token. -/
theorem exists_stretch_concat {ts : List Token} (h : ts ≠ []) :
    ∃ as t, stretch ts = as ++ [cell t] ∧ t ∈ ts := by
  rcases List.eq_nil_or_concat ts with rfl | ⟨us, t, rfl⟩
  · exact absurd rfl h
  · cases us with
    | nil => exact ⟨[], t, rfl, by simp⟩
    | cons u us => exact ⟨u.cell :: (cells us ++ ofGap t.gap), t, by simp, by simp⟩

/-- A cell of a stretch is a gap or one of its tokens. -/
theorem forall_mem_stretch {P : Cell → Prop} (hgap : ∀ g, P (.gap g)) (h : ∀ t ∈ ts, P t.cell) :
    ∀ c ∈ stretch ts, P c := by
  have hcells : ∀ us : List Token, (∀ t ∈ us, P t.cell) → ∀ c ∈ cells us, P c := by
    intro us hus c hc
    obtain ⟨t, ht, hc⟩ := List.mem_flatMap.1 hc
    rcases List.mem_append.1 hc with hc | hc
    · unfold ofGap at hc
      split at hc
      · cases hc
      · rw [List.mem_singleton.1 hc]
        exact hgap _
    · rw [List.mem_singleton.1 hc]
      exact hus t ht
  cases ts with
  | nil => exact nofun
  | cons t ts =>
    rw [stretch_cons, List.forall_mem_cons]
    exact ⟨h t List.mem_cons_self, hcells ts fun u hu => h u (List.mem_cons_of_mem _ hu)⟩

theorem cell_mem_stretch (h : t ∈ ts) : t.cell ∈ stretch ts := by
  cases ts with
  | nil => cases h
  | cons u ts =>
    rcases List.mem_cons.1 h with rfl | h
    · exact List.mem_cons_self
    · refine List.mem_cons_of_mem _ (List.mem_flatMap.2 ⟨t, h, ?_⟩)
      simp

/-- The cells of a stretch with a property that no gap has. -/
theorem filter_stretch {p : Cell → Bool} (hp : ∀ g, p (.gap g) = false) (ts : List Token) :
    (stretch ts).filter p = (ts.map cell).filter p := by
  have hgap : ∀ g, (ofGap g).filter p = [] := by
    intro g
    unfold ofGap
    split
    · rfl
    · simp [hp]
  have hcells : ∀ us : List Token, (cells us).filter p = (us.map cell).filter p := by
    intro us
    induction us with
    | nil => rfl
    | cons u us ih =>
      rw [cells_cons, List.filter_append, hgap, List.nil_append, List.filter_cons, List.map_cons,
        List.filter_cons, ih]
  cases ts with
  | nil => rfl
  | cons t ts => rw [stretch_cons, List.filter_cons, List.map_cons, List.filter_cons, hcells]

theorem mem_cells_of_mem_stretch {c : Cell} {u v w : List Token} (h : c ∈ stretch v) :
    c ∈ cells (u ++ (v ++ w)) := by
  have hv : c ∈ cells v := by
    cases v with
    | nil => cases h
    | cons t v =>
      rw [cells_cons]
      exact List.mem_append_right _ h
  rw [cells_append, cells_append]
  exact List.mem_append_right _ (List.mem_append_left _ hv)

theorem plain_of_isSymbol {s : Symbol} (h : t.isSymbol s = true) : Cell.Plain t.cell := by
  have hk : t.kind = .symbol s := Kind.isSymbol_iff.1 h
  rw [cell, hk]
  exact fun p hp => hp.symbol _ _

theorem plain_of_isKeyword {k : Keyword} (h : t.isKeyword k = true) : Cell.Plain t.cell := by
  have hk : t.kind = .keyword k := Kind.isKeyword_iff.1 h
  rw [cell, hk]
  exact fun p hp => hp.keyword _ _

theorem plain_of_isWord {rest : SqlText} (hfit : t.cell.Fits rest) (h : Cell.IsWord t.text) :
    Cell.Plain t.cell := by
  have hk := h.kind_eq hfit
  rw [cell, hk]
  exact Cell.plain_word h

/-! ### Places and depths -/

/-- Whether tokens stand where their starts say, if the first gap starts at `o`. -/
def Placed : Nat → List Token → Prop
  | _, [] => True
  | o, t :: ts => t.start = o + Text.byteSize t.gap ∧ Placed t.stop ts

/-- Whether the depths are those of matching parentheses, inside `d` open ones. -/
inductive Nested : Nat → List Token → Prop
  | nil : Nested 0 []
  | opening {d : Nat} {t : Token} {ts : List Token} (paren : t.isSymbol .leftParen = true)
      (depth : t.depth = d) (rest : Nested (d + 1) ts) : Nested d (t :: ts)
  | closing {d : Nat} {t : Token} {ts : List Token} (paren : t.isSymbol .rightParen = true)
      (depth : t.depth = d) (rest : Nested d ts) : Nested (d + 1) (t :: ts)
  | plain {d : Nat} {t : Token} {ts : List Token} (left : t.isSymbol .leftParen = false)
      (right : t.isSymbol .rightParen = false) (depth : t.depth = d) (rest : Nested d ts) :
      Nested d (t :: ts)

theorem placed_append :
    Placed o (as ++ bs) ↔ Placed o as ∧ Placed (o + Text.byteSize (Cell.spell (cells as))) bs := by
  induction as generalizing o with
  | nil => simp [Placed]
  | cons t as ih =>
    rw [List.cons_append, Placed, Placed, ih, and_assoc]
    refine and_congr_right fun h => and_congr_right fun _ => ?_
    have hstop : t.stop + Text.byteSize (Cell.spell (cells as))
        = o + Text.byteSize (Cell.spell (cells (t :: as))) := by
      simp only [PlacedLexeme.stop, h, cells_cons, Cell.spell_append, Cell.spell_cons,
        Cell.spell_ofGap, text_cell, Text.byteSize_append]
      omega
    rw [hstop]

theorem Placed.stopOr_eq (h : Placed o ts) (hne : ts ≠ []) (s : Nat) :
    stopOr s ts = o + Text.byteSize (Cell.spell (cells ts)) := by
  rcases List.eq_nil_or_concat ts with rfl | ⟨us, t, rfl⟩
  · exact absurd rfl hne
  · rw [List.concat_eq_append, placed_append] at h
    obtain ⟨-, hstart, -⟩ := h
    simp only [List.concat_eq_append, stopOr, List.getLast?_concat, PlacedLexeme.stop, hstart,
      cells_append, cells_cons, cells_nil, Cell.spell_append, Cell.spell_cons, Cell.spell_ofGap,
      text_cell, Cell.spell_nil, Text.byteSize_append, Text.byteSize_nil]
    omega

theorem stopOr_concat (s : Nat) (ts : List Token) (t : Token) : stopOr s (ts ++ [t]) = t.stop := by
  rw [stopOr, List.getLast?_concat]

theorem stopOr_cons (hne : ts ≠ []) (s s' : Nat) (t : Token) :
    stopOr s (t :: ts) = stopOr s' ts := by
  rcases List.eq_nil_or_concat ts with rfl | ⟨us, u, rfl⟩
  · exact absurd rfl hne
  · rw [List.concat_eq_append, ← List.cons_append, stopOr_concat, stopOr_concat]

/-- Tokens before a token start where the first of them all does. -/
theorem exists_startOr_eq (ts : List Token) (t : Token) (us : List Token) :
    ∃ next vs, ts ++ t :: us = next :: vs ∧ startOr t.start ts = next.start := by
  cases ts with
  | nil => exact ⟨t, us, rfl, rfl⟩
  | cons u ts => exact ⟨u, ts ++ t :: us, rfl, rfl⟩

theorem Placed.le_start (h : Placed o ts) : ∀ t ∈ ts, o ≤ t.start := by
  induction ts generalizing o with
  | nil => exact nofun
  | cons u ts ih =>
    obtain ⟨hstart, hrest⟩ := h
    intro t ht
    rcases List.mem_cons.1 ht with rfl | ht
    · omega
    · have := ih hrest t ht
      rw [PlacedLexeme.stop] at this
      omega

/-- The starts of tokens are in order. -/
theorem Placed.pairwise (h : Placed o ts) (hne : ∀ t ∈ ts, t.text ≠ []) :
    ts.Pairwise fun t u => t.start < u.start := by
  induction ts generalizing o with
  | nil => exact .nil
  | cons t ts ih =>
    obtain ⟨-, hrest⟩ := h
    refine List.pairwise_cons.2 ⟨fun u hu => ?_,
      ih hrest fun u hu => hne u (List.mem_cons_of_mem _ hu)⟩
    obtain ⟨c, w, hc⟩ := List.exists_cons_of_ne_nil (hne t List.mem_cons_self)
    have hpos := c.utf8Size_pos
    have hle := hrest.le_start u hu
    rw [PlacedLexeme.stop, hc, Text.byteSize_cons] at hle
    omega

/-- The depth falls only at a closing parenthesis. -/
theorem Nested.rightParen_of_lt (h : Nested d (as ++ t :: u :: bs)) (hlt : u.depth < t.depth) :
    u.isSymbol .rightParen = true := by
  induction as generalizing d with
  | nil =>
    have hnext : ∀ {e : Nat}, Nested e (u :: bs) → t.depth ≤ e → u.isSymbol .rightParen = true := by
      intro e hu he
      cases hu with
      | opening paren depth rest => omega
      | closing paren depth rest => exact paren
      | plain left right depth rest => omega
    cases h with
    | opening paren depth rest => exact hnext rest (by omega)
    | closing paren depth rest => exact hnext rest (by omega)
    | plain left right depth rest => exact hnext rest (by omega)
  | cons a as ih =>
    cases h with
    | opening paren depth rest => exact ih rest
    | closing paren depth rest => exact ih rest
    | plain left right depth rest => exact ih rest

end Token

/-! ### Reading -/

namespace Query

open Token (cells stretch Nested Placed)

/-- Whether a query is what its text is read as, with these cells behind the last token. -/
structure IsRead (q : Query) (tail : List Cell) : Prop where
  cells : Cell.ofText q.text = Token.cells q.tokens ++ tail
  tail : tail = [] ∨ ∃ g, tail = [.gap g]
  placed : Placed 0 q.tokens
  nested : Nested 0 q.tokens
  plain : ∀ t ∈ q.tokens, t.kind.isFault = false

theorem nest_eq_ok {ls : List Lexeme} (h : Lexeme.Lexed ls) :
    ∀ {d o : Nat} {ts : List Token}, nest d (Lexeme.placedFrom o ls) = .ok ts →
      (∃ tail, Lexeme.cellsOf ls = Token.cells ts ++ tail ∧ (tail = [] ∨ ∃ g, tail = [.gap g])) ∧
        Placed o ts ∧ Nested d ts ∧ ∀ t ∈ ts, t.kind.isFault = false := by
  induction h with
  | @last l ends =>
    intro d o ts hn
    rw [Lexeme.placedFrom, Lexeme.placedFrom, nest.eq_def] at hn
    simp only [ends.1] at hn
    split at hn
    · next hd =>
      subst hd
      cases hn
      refine ⟨⟨ofGap l.gap, rfl, ?_⟩, trivial, .nil, fun t ht => nomatch ht⟩
      unfold ofGap
      split
      · exact .inl rfl
      · exact .inr ⟨_, rfl⟩
    · cases hn
  | @cons l ls fits rest ih =>
    intro d o ts hn
    rw [Lexeme.placedFrom, nest.eq_def] at hn
    -- Whatever the token is, what is behind it is read inside some number of open parentheses.
    have hstep : ∀ {d' depth : Nat},
        (nest d' (Lexeme.placedFrom (o + Text.byteSize l.gap + Text.byteSize l.text) ls)).map
          (⟨⟨l, o + Text.byteSize l.gap⟩, depth⟩ :: ·) = .ok ts →
        ∃ us, ts = ⟨⟨l, o + Text.byteSize l.gap⟩, depth⟩ :: us ∧
          (∃ tail, Lexeme.cellsOf (l :: ls) = Token.cells ts ++ tail ∧
            (tail = [] ∨ ∃ g, tail = [.gap g])) ∧ Placed o ts ∧ Nested d' us ∧
          ∀ t ∈ us, t.kind.isFault = false := by
      intro d' depth hmap
      cases hrest : nest d' (Lexeme.placedFrom (o + Text.byteSize l.gap + Text.byteSize l.text) ls)
        with
      | error e =>
        rw [hrest] at hmap
        cases hmap
      | ok us =>
        rw [hrest] at hmap
        cases hmap
        obtain ⟨⟨tail, hcells, htail⟩, hplaced, hnested, hplain⟩ := ih hrest
        refine ⟨us, rfl, ⟨tail, ?_, htail⟩, ⟨rfl, hplaced⟩, hnested, hplain⟩
        rw [Lexeme.cellsOf_cons rest.ne_nil, hcells, Token.cells_cons, Lexeme.cells,
          List.append_assoc, List.append_assoc]
        rfl
    have hfault : ∀ {us : List Token} {depth : Nat}, l.kind.isFault = false →
        (∀ t ∈ us, t.kind.isFault = false) →
        ∀ t ∈ (⟨⟨l, o + Text.byteSize l.gap⟩, depth⟩ : Token) :: us, t.kind.isFault = false := by
      intro us depth hl hus t ht
      rcases List.mem_cons.1 ht with rfl | ht
      · exact hl
      · exact hus t ht
    simp only at hn
    split at hn
    · cases hn
    · next hk =>
      exact absurd hk fits.kind_ne_eof
    · next hk =>
      obtain ⟨us, rfl, hcells, hplaced, hnested, hplain⟩ := hstep hn
      refine ⟨hcells, hplaced, .opening ?_ rfl hnested, hfault (by rw [hk]; rfl) hplain⟩
      show l.kind.isSymbol .leftParen = true
      rw [hk]
      rfl
    · next hk =>
      cases d with
      | zero => cases hn
      | succ d =>
        obtain ⟨us, rfl, hcells, hplaced, hnested, hplain⟩ := hstep hn
        refine ⟨hcells, hplaced, .closing ?_ rfl hnested, hfault (by rw [hk]; rfl) hplain⟩
        show l.kind.isSymbol .rightParen = true
        rw [hk]
        rfl
    · next hnotFault hnotEof hnotLeft hnotRight =>
      obtain ⟨us, rfl, hcells, hplaced, hnested, hplain⟩ := hstep hn
      refine ⟨hcells, hplaced, .plain ?_ ?_ rfl hnested, hfault ?_ hplain⟩
      · show l.kind.isSymbol .leftParen = false
        simpa [Kind.isSymbol] using hnotLeft
      · show l.kind.isSymbol .rightParen = false
        simpa [Kind.isSymbol] using hnotRight
      · cases hk : l.kind with
        | fault f => exact absurd hk (hnotFault f)
        | _ => rfl

theorem ofText_eq_ok_iff {text : SqlText} {q : Query} :
    ofText text = .ok q ↔ q.text = text ∧ nest 0 (tokenize text) = .ok q.tokens := by
  obtain ⟨text', tokens⟩ := q
  rw [ofText]
  cases nest 0 (tokenize text) with
  | error e => exact ⟨nofun, nofun⟩
  | ok ts =>
    constructor
    · rintro ⟨⟩
      exact ⟨rfl, rfl⟩
    · rintro ⟨rfl, ⟨⟩⟩
      rfl

/-- What `ofText` answers is read. -/
theorem isRead {text : SqlText} {q : Query} (h : ofText text = .ok q) :
    q.text = text ∧ ∃ tail, q.IsRead tail := by
  obtain ⟨rfl, hn⟩ := ofText_eq_ok_iff.1 h
  obtain ⟨⟨tail, hcells, htail⟩, hplaced, hnested, hplain⟩ := nest_eq_ok (Lexeme.lexed_lex q.text) hn
  exact ⟨rfl, tail, hcells, htail, hplaced, hnested, hplain⟩

namespace IsRead

variable {q : Query} {tail : List Cell} {as ts bs : List Token} {t : Token}

theorem sound (h : q.IsRead tail) : Sound (Token.cells q.tokens ++ tail) := by
  rw [← h.cells]
  exact Cell.sound_ofText q.text

theorem spell (h : q.IsRead tail) : Cell.spell (Token.cells q.tokens ++ tail) = q.text := by
  rw [← h.cells, Cell.spell_ofText]

theorem isFault (h : q.IsRead tail) :
    ∀ c ∈ Token.cells q.tokens ++ tail, c.isFault = false := by
  intro c hc
  rcases List.mem_append.1 hc with hc | hc
  · obtain ⟨t, ht, hc⟩ := List.mem_flatMap.1 hc
    rcases List.mem_append.1 hc with hc | hc
    · unfold ofGap at hc
      split at hc
      · cases hc
      · obtain rfl := List.mem_singleton.1 hc
        rfl
    · obtain rfl := List.mem_singleton.1 hc
      exact h.plain t ht
  · rcases h.tail with rfl | ⟨g, rfl⟩
    · cases hc
    · obtain rfl := List.mem_singleton.1 hc
      rfl

/-- A stretch of tokens is a stretch of cells. -/
theorem split (h : q.IsRead tail) (hq : q.tokens = as ++ (t :: ts ++ bs)) :
    Token.cells q.tokens ++ tail
        = (Token.cells as ++ ofGap t.gap) ++ (stretch (t :: ts) ++ (Token.cells bs ++ tail)) ∧
      t.start = Text.byteSize (Cell.spell (Token.cells as ++ ofGap t.gap)) ∧
      ∀ s, Token.stopOr s (t :: ts)
        = Text.byteSize (Cell.spell ((Token.cells as ++ ofGap t.gap) ++ stretch (t :: ts))) := by
  have hplaced := h.placed
  rw [hq, Token.placed_append, List.cons_append, Placed, Nat.zero_add] at hplaced
  obtain ⟨-, hstart, hrest⟩ := hplaced
  refine ⟨by simp [hq], ?_, fun s => ?_⟩
  · rw [hstart]
    simp
  · have hts : Placed (Text.byteSize (Cell.spell (Token.cells as))) (t :: ts) :=
      ⟨hstart, (Token.placed_append.1 hrest).1⟩
    rw [hts.stopOr_eq (List.cons_ne_nil _ _)]
    simp

/-- A single token as a stretch. -/
theorem split_one (h : q.IsRead tail) (hq : q.tokens = as ++ (t :: bs)) :
    Token.cells q.tokens ++ tail
        = (Token.cells as ++ ofGap t.gap) ++ (t.cell :: (Token.cells bs ++ tail)) ∧
      t.start = Text.byteSize (Cell.spell (Token.cells as ++ ofGap t.gap)) ∧
      t.stop = Text.byteSize (Cell.spell ((Token.cells as ++ ofGap t.gap) ++ [t.cell])) :=
  have hs := h.split (show q.tokens = as ++ ([t] ++ bs) from hq)
  ⟨hs.1, hs.2.1, hs.2.2 0⟩

/-- A token fits before what is behind it. -/
theorem fits (h : q.IsRead tail) (hq : q.tokens = as ++ (t :: bs)) :
    t.cell.Fits (Cell.spell (Token.cells bs ++ tail)) := by
  have hs := h.sound
  rw [(h.split_one hq).1] at hs
  exact (Cell.sound_cons_iff.1 hs.of_append).1

theorem pairwise_start (h : q.IsRead tail) : q.tokens.Pairwise fun t u => t.start < u.start := by
  refine h.placed.pairwise fun t ht => ?_
  obtain ⟨as, bs, hq⟩ := List.append_of_mem ht
  exact (h.fits hq).text_ne_nil

/-- A token stands at one place. -/
theorem append_cons_inj {cs ds : List Token} (h : q.IsRead tail) (hq : q.tokens = as ++ t :: bs)
    (hq' : q.tokens = cs ++ t :: ds) : as = cs ∧ bs = ds := by
  have hp := h.pairwise_start
  rw [hq] at hq'
  rcases List.append_eq_append_iff.1 hq' with ⟨us, hcs, hrest⟩ | ⟨us, has, hrest⟩
  · cases us with
    | nil => exact ⟨by simpa using hcs.symm, (List.cons.inj hrest).2⟩
    | cons u us =>
      rw [hq, (List.cons.inj hrest).2] at hp
      have htail := (List.pairwise_append.1 hp).2.1
      have hmem : t ∈ us.append (t :: ds) := by simp
      have hlt : t.start < t.start := List.rel_of_pairwise_cons htail hmem
      omega
  · cases us with
    | nil => exact ⟨by simpa using has, (List.cons.inj hrest).2.symm⟩
    | cons u us =>
      obtain ⟨rfl, -⟩ := List.cons.inj hrest
      rw [hq, has] at hp
      have := (List.pairwise_append.1 hp).2.2 t (by simp) t List.mem_cons_self
      omega

end IsRead

/-- A text that is read as a query has no faults. -/
theorem isFault_of_ofText {text : SqlText} {q : Query} (h : ofText text = .ok q) :
    ∀ c ∈ Cell.ofText text, c.isFault = false := by
  obtain ⟨rfl, tail, hread⟩ := isRead h
  rw [hread.cells]
  exact hread.isFault

/-- What an edit that swaps cells makes of a text that is read as a query. -/
theorem once {R : Swap} {e : Edit} {text out : SqlText} {q : Query} (h : ofText text = .ok q)
    (stays : Cell → Bool)
    (he : ∀ tail, q.IsRead tail → e.IsSwap R stays (Token.cells q.tokens ++ tail))
    (happ : Edit.applyAll [e] text = .ok out) : R.Once text out := by
  obtain ⟨rfl, tail, hread⟩ := isRead h
  have he' := he tail hread
  rw [← hread.cells] at he'
  exact he'.once happ

/-- What edits that swap cells make of a text that is read as a query. -/
theorem makes {R : Swap} {es : List Edit} {text out : SqlText} {q : Query} (h : ofText text = .ok q)
    (stays : Cell → Bool)
    (hes : ∀ tail, q.IsRead tail → ∀ e ∈ es, e.IsSwap R stays (Token.cells q.tokens ++ tail))
    (happ : Edit.applyAll es text = .ok out) : R.Makes text out := by
  obtain ⟨rfl, tail, hread⟩ := isRead h
  have hes' : ∀ e ∈ es, e.IsSwap R stays (Cell.ofText q.text) := by
    rw [hread.cells]
    exact hes tail hread
  exact Edit.makes hes' happ

end Query

/-! ### Parts of stretches -/

namespace Token

variable {p : Token → Bool} {ts before after : List Token} {found t : Token} {depth stop : Nat}

theorem splitLast_eq_some (h : splitLast p ts = some (before, found, after)) :
    ts = before ++ found :: after ∧ p found = true ∧ ∀ t ∈ after, ¬p t := by
  rw [splitLast, Option.map_eq_some_iff] at h
  obtain ⟨⟨a, f, b⟩, hs, he⟩ := h
  obtain ⟨rfl, rfl, rfl⟩ : b.reverse = before ∧ f = found ∧ a.reverse = after := by simpa using he
  obtain ⟨hr, hf, ha⟩ := splitFirst_eq_some hs
  refine ⟨?_, hf, fun t ht => ha t (by simpa using ht)⟩
  have := congrArg List.reverse hr
  simpa using this

/-- The first piece ends at the first comma, and the others are those behind it. -/
theorem pieces_eq_cons {piece : Piece} {ps : List Piece} (h : pieces depth stop ts = piece :: ps) :
    ∃ bs, ts = piece.tokens ++ bs ∧ (∀ t ∈ piece.tokens, t.isSymbolAt depth .comma = false) ∧
      (bs = [] ∧ ps = [] ∨
        ∃ c us, bs = c :: us ∧ c.isSymbolAt depth .comma = true ∧ ps = pieces depth stop us) := by
  induction ts generalizing piece ps with
  | nil =>
    obtain ⟨rfl, rfl⟩ : ⟨[], stop⟩ = piece ∧ [] = ps := by simpa [pieces] using h
    exact ⟨[], rfl, by simp, .inl ⟨rfl, rfl⟩⟩
  | cons t ts ih =>
    rw [pieces] at h
    split at h
    · next hc =>
      obtain ⟨rfl, rfl⟩ := List.cons.inj h
      exact ⟨t :: ts, rfl, by simp, .inr ⟨t, ts, rfl, hc, rfl⟩⟩
    · next hc =>
      cases hp : pieces depth stop ts with
      | nil => exact absurd hp (pieces_ne_nil depth stop ts)
      | cons q qs =>
        rw [hp] at h
        obtain ⟨rfl, rfl⟩ := List.cons.inj h
        obtain ⟨bs, hts, hall, hbs⟩ := ih hp
        refine ⟨bs, by rw [hts]; rfl, fun u hu => ?_, hbs⟩
        rcases List.mem_cons.1 hu with rfl | hu
        · simpa using hc
        · exact hall u hu

/-- A piece stands between commas or ends of the whole. -/
theorem mem_pieces {piece : Piece} {ts : List Token} (h : piece ∈ pieces depth stop ts) :
    ∃ as bs, ts = as ++ (piece.tokens ++ bs) ∧
      (as = [] ∨ ∃ us c, as = us ++ [c] ∧ c.isSymbolAt depth .comma = true) ∧
      (bs = [] ∨ ∃ c us, bs = c :: us ∧ c.isSymbolAt depth .comma = true) := by
  obtain ⟨first, ps, hps⟩ := List.exists_cons_of_ne_nil (pieces_ne_nil depth stop ts)
  obtain ⟨bs, hts, -, hbs⟩ := pieces_eq_cons hps
  rw [hps] at h
  rcases List.mem_cons.1 h with rfl | h
  · refine ⟨[], bs, hts, .inl rfl, ?_⟩
    rcases hbs with ⟨rfl, -⟩ | ⟨c, us, rfl, hc, -⟩
    · exact .inl rfl
    · exact .inr ⟨c, us, rfl, hc⟩
  · rcases hbs with ⟨-, rfl⟩ | ⟨c, us, rfl, hc, rfl⟩
    · cases h
    · have : us.length < ts.length := by
        rw [hts]
        simp
        omega
      obtain ⟨as, bs, rfl, has, hbs⟩ := mem_pieces h
      refine ⟨first.tokens ++ c :: as, bs, by simp [hts], .inr ?_, hbs⟩
      rcases has with rfl | ⟨vs, d, rfl, hd⟩
      · exact ⟨first.tokens, c, rfl, hc⟩
      · exact ⟨first.tokens ++ c :: vs, d, by simp, hd⟩
termination_by ts.length

theorem mem_splitCommas {item ts : List Token} (h : item ∈ splitCommas depth ts) :
    ∃ as bs, ts = as ++ (item ++ bs) ∧
      (as = [] ∨ ∃ us c, as = us ++ [c] ∧ c.isSymbolAt depth .comma = true) ∧
      (bs = [] ∨ ∃ c us, bs = c :: us ∧ c.isSymbolAt depth .comma = true) := by
  obtain ⟨piece, hp, rfl⟩ := List.mem_map.1 h
  exact mem_pieces hp

/-- What is before the first comma, and the stretches behind it. -/
theorem splitCommas_eq_cons {item ts : List Token} {items : List (List Token)}
    (h : splitCommas depth ts = item :: items) :
    (ts = item ∧ items = []) ∨ ∃ c us, ts = item ++ c :: us ∧
      c.isSymbolAt depth .comma = true ∧ splitCommas depth us = items := by
  rw [splitCommas, List.map_eq_cons_iff] at h
  obtain ⟨piece, ps, hp, rfl, rfl⟩ := h
  obtain ⟨bs, rfl, -, hbs⟩ := pieces_eq_cons hp
  rcases hbs with ⟨rfl, rfl⟩ | ⟨c, us, rfl, hc, rfl⟩
  · exact .inl ⟨List.append_nil _, rfl⟩
  · exact .inr ⟨c, us, rfl, hc, rfl⟩

theorem isSymbol_of_isSymbolAt {s : Symbol} (h : t.isSymbolAt depth s = true) :
    t.isSymbol s = true := by
  rw [isSymbolAt, Bool.and_eq_true] at h
  exact h.2

theorem isKeyword_of_isKeywordAt {k : Keyword} (h : t.isKeywordAt depth k = true) :
    t.isKeyword k = true := by
  rw [isKeywordAt, Bool.and_eq_true] at h
  exact h.2

theorem depth_of_isSymbolAt {s : Symbol} (h : t.isSymbolAt depth s = true) : t.depth = depth := by
  rw [isSymbolAt, Bool.and_eq_true] at h
  simpa using h.1

theorem depth_of_isKeywordAt {k : Keyword} (h : t.isKeywordAt depth k = true) : t.depth = depth := by
  rw [isKeywordAt, Bool.and_eq_true] at h
  simpa using h.1

end Token

namespace Call

variable {p : Token → Bool} {ts after : List Token} {c : Call}

/-- Whether the parentheses of a call belong to each other. -/
structure Matched (c : Call) : Prop where
  left : c.opening.isSymbol .leftParen = true
  right : c.closing.isSymbolAt c.opening.depth .rightParen = true
  inside : ∀ t ∈ c.args, t.isSymbolAt c.opening.depth .rightParen = false

theorem atFront_eq_some (h : atFront p ts = some (c, after)) :
    ts = c.tokens ++ after ∧ p c.name = true ∧ c.Matched := by
  unfold atFront at h
  split at h
  · next name opening ts =>
    split at h
    · next hp =>
      obtain ⟨⟨args, closing, rest⟩, hs, he⟩ := Option.map_eq_some_iff.1 h
      obtain ⟨rfl, rfl⟩ : (⟨name, opening, args, closing⟩ : Call) = c ∧ rest = after := by
        simpa using he
      obtain ⟨rfl, hclosing, hargs⟩ := Token.splitFirst_eq_some hs
      exact ⟨by simp [tokens], hp.1, hp.2, hclosing, fun t ht => by simpa using hargs t ht⟩
    · cases h
  · cases h

/-- A call is a stretch, and no dot stands before its name. -/
theorem mem_among {afterDot : Bool} (h : c ∈ among p afterDot ts) :
    ∃ as bs, ts = as ++ (c.tokens ++ bs) ∧ p c.name = true ∧ c.Matched ∧
      (as = [] → afterDot = false) ∧ ∀ t ∈ as.getLast?, t.isSymbol .dot = false := by
  induction ts generalizing afterDot with
  | nil => cases h
  | cons t ts ih =>
    have hlater : c ∈ among p (t.isSymbol .dot) ts → ∃ as bs, t :: ts = as ++ (c.tokens ++ bs) ∧
        p c.name = true ∧ c.Matched ∧ (as = [] → afterDot = false) ∧
        ∀ t ∈ as.getLast?, t.isSymbol .dot = false := by
      intro hc
      obtain ⟨as, bs, rfl, hp, hmatched, hnil, hdot⟩ := ih hc
      refine ⟨t :: as, bs, rfl, hp, hmatched, nofun, ?_⟩
      intro u hu
      cases as with
      | nil =>
        obtain rfl : t = u := by simpa using hu
        exact hnil rfl
      | cons a as => exact hdot u (by simpa [List.getLast?_cons_cons] using hu)
    rw [among] at h
    split at h
    · next call after hfront =>
      split at h
      · exact hlater h
      · next hdot =>
        rcases List.mem_cons.1 h with rfl | h
        · obtain ⟨hts, hp, hmatched⟩ := atFront_eq_some hfront
          exact ⟨[], after, hts, hp, hmatched, fun _ => by simpa using hdot, by simp⟩
        · exact hlater h
    · exact hlater h

/-- Tokens start with at most one call. -/
theorem Matched.eq {c' : Call} {bs bs' : List Token} (h : c.Matched) (h' : c'.Matched)
    (heq : c.tokens ++ bs = c'.tokens ++ bs') : c = c' := by
  obtain ⟨name, opening, args, closing⟩ := c
  obtain ⟨name', opening', args', closing'⟩ := c'
  simp only [tokens, List.cons_append, List.cons.injEq, List.append_assoc, List.nil_append] at heq
  obtain ⟨rfl, rfl, heq⟩ := heq
  suffices args = args' ∧ closing = closing' by rw [this.1, this.2]
  rcases List.append_eq_append_iff.1 heq with ⟨us, hargs, hrest⟩ | ⟨us, hargs, hrest⟩
  · cases us with
    | nil => exact ⟨by simpa using hargs.symm, by simpa using (List.cons.inj hrest).1⟩
    | cons u us =>
      obtain rfl : closing = u := (List.cons.inj hrest).1
      have := h'.inside closing (by simp [hargs])
      rw [h.right] at this
      cases this
  · cases us with
    | nil => exact ⟨by simpa using hargs, by simpa using (List.cons.inj hrest).1.symm⟩
    | cons u us =>
      obtain rfl : closing' = u := (List.cons.inj hrest).1
      have := h.inside closing' (by simp [hargs])
      rw [h'.right] at this
      cases this

end Call

/-! ### Clauses -/

namespace Clause

variable {depth stop : Nat} {ts : List Token} {c : Clause}

/-- The words that open the clauses of each kind at some depth. -/
inductive HasWords (depth : Nat) : ClauseKind → List Token → Prop
  | tables {t : Token} (word : t.isKeyword .FROM = true) (at_ : t.depth = depth) :
      HasWords depth .tables [t]
  | filter {t : Token} (word : t.isKeyword .WHERE = true) (at_ : t.depth = depth) :
      HasWords depth .filter [t]
  | groupFilter {t : Token} (word : t.isKeyword .HAVING = true) (at_ : t.depth = depth) :
      HasWords depth .groupFilter [t]
  | groups {t b : Token} (word : t.isKeyword .GROUP = true) (by_ : b.isKeyword .BY = true)
      (at_ : t.depth = depth) : HasWords depth .groups [t, b]
  | ordering {t b : Token} (word : t.isKeyword .ORDER = true) (by_ : b.isKeyword .BY = true)
      (at_ : t.depth = depth) : HasWords depth .ordering [t, b]

/-- Whether a stretch ends here or goes on with a clause of a depth. -/
def EndsAt (depth : Nat) (bs : List Token) : Prop :=
  bs = [] ∨ ∃ b us, bs = b :: us ∧ b.depth = depth ∧ (opened? b us).isSome = true

/-- What is before the first clause ends where a clause is opened. -/
theorem cut_fst (depth stop : Nat) (ts : List Token) :
    ∃ bs, ts = (cut depth stop ts).1 ++ bs ∧ EndsAt depth bs := by
  induction ts with
  | nil => exact ⟨[], rfl, .inl rfl⟩
  | cons t ts ih =>
    obtain ⟨bs, hts, hbs⟩ := ih
    rw [cut]
    simp only
    split
    · refine ⟨bs, ?_, hbs⟩
      rw [List.cons_append, ← hts]
    · next kind more hopen =>
      split at hopen
      · next hd => exact ⟨t :: ts, rfl, .inr ⟨t, ts, rfl, hd, by rw [hopen]; rfl⟩⟩
      · cases hopen

theorem cut_fst_by {b : Token} (hb : b.isKeyword .BY = true) (us : List Token) :
    (cut depth stop (b :: us)).1 = b :: (cut depth stop us).1 := by
  have hkind : b.kind = .keyword .BY := Kind.isKeyword_iff.1 hb
  have hnone : opened? b us = none := by simp [opened?, hkind, Kind.keyword?]
  rw [cut]
  simp only [hnone, ite_self]

theorem hasWords {t : Token} {kind : ClauseKind} {more : Nat} (hd : t.depth = depth)
    (h : opened? t ts = some (kind, more)) :
    HasWords depth kind (t :: (cut depth stop ts).1.take more) := by
  have hkey : ∀ {k : Keyword}, t.kind.keyword? = some k → t.isKeyword k = true := by
    intro k hk
    cases ht : t.kind with
    | keyword k' =>
      rw [ht] at hk
      obtain rfl : k' = k := by simpa [Kind.keyword?] using hk
      simp [Token.isKeyword, Kind.isKeyword, ht]
    | _ => rw [ht] at hk; cases hk
  have hby : (ts.head?.any fun u => u.isKeyword .BY) = true →
      ∃ b, b.isKeyword .BY = true ∧ (cut depth stop ts).1.take 1 = [b] := by
    intro hb
    cases ts with
    | nil => cases hb
    | cons b us =>
      have hb' : b.isKeyword .BY = true := by simpa using hb
      exact ⟨b, hb', by rw [cut_fst_by hb']; rfl⟩
  unfold opened? at h
  simp only at h
  split at h
  · next hk =>
    cases h
    exact .tables (hkey hk) hd
  · next hk =>
    cases h
    exact .filter (hkey hk) hd
  · next hk =>
    cases h
    exact .groupFilter (hkey hk) hd
  · next hk =>
    split at h
    · next hb =>
      cases h
      obtain ⟨b, hb, htake⟩ := hby hb
      rw [htake]
      exact .groups (hkey hk) hb hd
    · cases h
  · next hk =>
    split at h
    · next hb =>
      cases h
      obtain ⟨b, hb, htake⟩ := hby hb
      rw [htake]
      exact .ordering (hkey hk) hb hd
    · cases h
  · cases h

/-- A clause is a stretch behind the first part, from the words that open it up to where the next one is
opened. -/
theorem mem_cut (h : c ∈ (cut depth stop ts).2) :
    ∃ as bs, ts = (cut depth stop ts).1 ++ (as ++ (c.words ++ (c.body ++ bs))) ∧
      HasWords depth c.kind c.words ∧ EndsAt depth bs := by
  induction ts with
  | nil => cases h
  | cons t ts ih =>
    rw [cut] at h ⊢
    simp only at h ⊢
    split at h
    · obtain ⟨as, bs, hts, hwords, hbs⟩ := ih h
      refine ⟨as, bs, ?_, hwords, hbs⟩
      rw [List.cons_append, ← hts]
    · next kind more hopen =>
      split at hopen
      · next hd =>
        rcases List.mem_cons.1 h with rfl | h
        · obtain ⟨bs, hts, hbs⟩ := cut_fst depth stop ts
          refine ⟨[], bs, ?_, hasWords hd hopen, hbs⟩
          rw [List.nil_append, List.nil_append, ← List.append_assoc, List.cons_append,
            List.take_append_drop, List.cons_append, ← hts]
        · obtain ⟨as, bs, hts, hwords, hbs⟩ := ih h
          refine ⟨t :: ((cut depth stop ts).1 ++ as), bs, ?_, hwords, hbs⟩
          rw [List.nil_append, List.cons_append, List.append_assoc, ← hts]
      · cases hopen

end Clause

/-! ### Scopes -/

/-- Whether a clause or a scope ends before a token: a clause is opened, a parenthesis closed, or the scope is
over. -/
def Token.EndsClause (t : Token) : Prop :=
  t.isSymbol .rightParen = true ∨ t.isSymbol .semicolon = true ∨
    ∃ k ∈ [Keyword.UNION, .FROM, .WHERE, .GROUP, .HAVING, .ORDER], t.isKeyword k = true

/-- Whether an item of an ordering ends before a token, apart from a direction: it ends a clause, or is a comma or the
direction itself. -/
def Token.EndsItem (t : Token) : Prop :=
  t.EndsClause ∨ t.isSymbol .comma = true ∨ t.isKeyword .ASC = true ∨ t.isKeyword .DESC = true

/-- Whether a token ends a scope. -/
def Token.EndsScope (t : Token) : Prop :=
  t.isSymbol .rightParen = true ∨ t.isSymbol .semicolon = true ∨ t.isKeyword .UNION = true

theorem Token.EndsScope.endsClause {t : Token} (h : t.EndsScope) : t.EndsClause := by
  rcases h with hr | hs | hu
  · exact .inl hr
  · exact .inr (.inl hs)
  · exact .inr (.inr ⟨.UNION, by simp, hu⟩)

/-- Whether the first token of cells, if there is one, ends a clause. -/
def Cell.AtEnd (cs : List Cell) : Prop :=
  ∀ d ∈ firstToken? cs, ∃ t : Token, t.EndsClause ∧ d = t.cell

theorem Clause.HasWords.endsClause {depth : Nat} {kind : ClauseKind} {ws : List Token}
    (h : HasWords depth kind ws) : ∀ t ∈ ws.head?, t.EndsClause := by
  intro t ht
  cases h with
  | tables word =>
    cases ht
    exact .inr (.inr ⟨.FROM, by simp, word⟩)
  | filter word =>
    cases ht
    exact .inr (.inr ⟨.WHERE, by simp, word⟩)
  | groupFilter word =>
    cases ht
    exact .inr (.inr ⟨.HAVING, by simp, word⟩)
  | groups word =>
    cases ht
    exact .inr (.inr ⟨.GROUP, by simp, word⟩)
  | ordering word =>
    cases ht
    exact .inr (.inr ⟨.ORDER, by simp, word⟩)

theorem Clause.endsClause_of_opened? {t : Token} {ts : List Token} (h : (opened? t ts).isSome = true) :
    t.EndsClause := by
  obtain ⟨⟨kind, more⟩, hopen⟩ := Option.isSome_iff_exists.1 h
  have hwords : HasWords t.depth kind (t :: (cut t.depth 0 ts).1.take more) := hasWords rfl hopen
  exact hwords.endsClause t rfl

namespace Scope

variable {stop : Nat} {ts : List Token} {s : Scope} {c : Clause}

/-- A scope is that of its `SELECT`. -/
theorem mem_among (h : s ∈ among stop ts) :
    ∃ as after, ts = as ++ s.select :: after ∧ s = ofSelect stop s.select after ∧
      s.select.isKeyword .SELECT = true := by
  induction ts with
  | nil => cases h
  | cons t ts ih =>
    have hlater : s ∈ among stop ts → ∃ as after, t :: ts = as ++ s.select :: after ∧
        s = ofSelect stop s.select after ∧ s.select.isKeyword .SELECT = true := by
      intro hs
      obtain ⟨as, after, rfl, heq, hsel⟩ := ih hs
      exact ⟨t :: as, after, rfl, heq, hsel⟩
    rw [among] at h
    split at h
    · next ht =>
      rcases List.mem_cons.1 h with rfl | h
      · exact ⟨[], ts, rfl, rfl, ht⟩
      · exact hlater h
    · exact hlater h

variable {as after : List Token} {select : Token} {d : Nat}

/-- Behind a scope is the end, the parenthesis that closes around it, or what ends it. -/
theorem endsScope_of_dropWhile (hn : Token.Nested d (as ++ select :: after)) :
    ∀ t ∈ (after.dropWhile (reaches select.depth)).head?, t.EndsScope := by
  intro t ht
  obtain ⟨us, hus⟩ := List.head?_eq_some_iff.1 ht
  have hnot : reaches select.depth t = false := by
    have := List.head?_dropWhile_not (reaches select.depth) after
    rw [hus] at this
    simpa using this
  have hafter := List.takeWhile_append_dropWhile (p := reaches select.depth) (l := after)
  by_cases hlt : t.depth < select.depth
  · -- The token before it is in the scope, so the depth falls here.
    obtain ⟨init, p, hp, hdepth⟩ : ∃ init p,
        select :: after.takeWhile (reaches select.depth) = init ++ [p] ∧ select.depth ≤ p.depth := by
      rcases List.eq_nil_or_concat (after.takeWhile (reaches select.depth)) with hnil | ⟨init, p, hp⟩
      · exact ⟨[], select, by rw [hnil]; rfl, Nat.le_refl _⟩
      · refine ⟨select :: init, p, by rw [hp, List.concat_eq_append]; rfl, ?_⟩
        have hmem : p ∈ after.takeWhile (reaches select.depth) := by simp [hp]
        have := List.all_eq_true.1 List.all_takeWhile p hmem
        rw [reaches, Bool.and_eq_true, decide_eq_true_eq] at this
        exact this.1
    have heq : as ++ select :: after = as ++ init ++ p :: t :: us := by
      rw [← hafter, hus, ← List.cons_append, hp]
      simp
    rw [heq] at hn
    exact .inl (hn.rightParen_of_lt (by omega))
  · have hover : t.isKeyword .UNION = true ∨ t.isSymbol .semicolon = true := by
      cases hunion : t.isKeyword .UNION with
      | true => exact .inl rfl
      | false =>
        cases hsemi : t.isSymbol .semicolon with
        | true => exact .inr rfl
        | false =>
          rw [reaches, hunion, hsemi] at hnot
          simp at hnot
          omega
    rcases hover with h | h
    · exact .inr (.inr h)
    · exact .inr (.inl h)

end Scope

namespace Query

variable {q : Query} {s : Scope} {c : Clause} {tail : List Cell}

/-- Whether a stretch goes on, if at all, with what ends a clause. -/
def AtEnd (bs : List Token) : Prop :=
  ∀ t ∈ bs.head?, t.EndsClause

/-- A scope is a stretch: its `SELECT` and its body, which is cut into the select list and clauses. -/
theorem IsRead.scope (h : q.IsRead tail) (hs : s ∈ q.scopes) :
    ∃ as rest stop, q.tokens = as ++ (s.select :: (s.body ++ rest)) ∧ (∀ t ∈ rest.head?, t.EndsScope) ∧
      s.clauses = (Clause.cut s.depth stop s.body).2 ∧
      s.list = (Clause.cut s.depth stop s.body).1.drop (Scope.modifierCount s.body) ∧
      s.modifiers = s.body.take (Scope.modifierCount s.body) ∧
      s.select.isKeyword .SELECT = true := by
  obtain ⟨as, after, hq, heq, hsel⟩ := Scope.mem_among hs
  have hbody : s.body = after.takeWhile (Scope.reaches s.select.depth) := by rw [heq]; rfl
  have hafter := List.takeWhile_append_dropWhile (p := Scope.reaches s.select.depth) (l := after)
  rw [← hbody] at hafter
  refine ⟨as, after.dropWhile (Scope.reaches s.select.depth), Token.startOr q.stop
    (after.dropWhile (Scope.reaches s.select.depth)), by rw [hafter, hq], ?_, ?_, ?_, ?_, hsel⟩
  · have hn := h.nested
    rw [hq] at hn
    exact Scope.endsScope_of_dropWhile hn
  · rw [heq]
    rfl
  · rw [heq]
    rfl
  · rw [heq]
    rfl

/-- A clause of a scope is a stretch. -/
theorem IsRead.clause (h : q.IsRead tail) (hs : s ∈ q.scopes) (hc : c ∈ s.clauses) :
    ∃ as bs, q.tokens = as ++ (c.words ++ (c.body ++ bs)) ∧
      Clause.HasWords s.depth c.kind c.words ∧ AtEnd bs := by
  obtain ⟨as, rest, stop, hq, hrest, hclauses, -⟩ := h.scope hs
  rw [hclauses] at hc
  obtain ⟨bs, us, hbody, hwords, hends⟩ := Clause.mem_cut hc
  refine ⟨as ++ s.select :: ((Clause.cut s.depth stop s.body).1 ++ bs), us ++ rest, ?_, hwords, ?_⟩
  · rw [hq]
    conv => lhs; rw [hbody]
    simp
  intro t ht
  rcases hends with rfl | ⟨b, vs, rfl, -, hopen⟩
  · exact (hrest t ht).endsClause
  · obtain rfl : b = t := by simpa using ht
    exact Clause.endsClause_of_opened? hopen

/-- An item of a select list is a stretch, behind a comma, the `SELECT` or its last modifier. -/
theorem IsRead.item {item : List Token} (h : q.IsRead tail) (hs : s ∈ q.scopes)
    (hi : item ∈ s.items) (hne : item ≠ []) : ∃ as bs, q.tokens = as ++ (item ++ bs) ∧
      ∀ u ∈ as.getLast?, u.isSymbol .comma = true ∨ u.isKeyword .SELECT = true ∨ u ∈ s.modifiers.getLast? := by
  obtain ⟨as, rest, stop, hq, -, -, hlist, hmodifiers, hselect⟩ := h.scope hs
  obtain ⟨bs, hbody, -⟩ := Clause.cut_fst s.depth stop s.body
  obtain ⟨us, vs, hitem, hus, -⟩ := Token.mem_splitCommas hi
  -- with an item in the list, the modifiers are all of the front before it
  have hfront := List.take_append_drop (Scope.modifierCount s.body) (Clause.cut s.depth stop s.body).1
  have hle : Scope.modifierCount s.body ≤ (Clause.cut s.depth stop s.body).1.length := by
    refine Nat.le_of_not_lt fun hlt => hne ?_
    rw [List.drop_of_length_le (Nat.le_of_lt hlt)] at hlist
    rw [hlist] at hitem
    exact (List.append_eq_nil_iff.1 (List.append_eq_nil_iff.1 hitem.symm).2).1
  have htake : List.take (Scope.modifierCount s.body) (Clause.cut s.depth stop s.body).1 = s.modifiers := by
    have htake := @List.take_append_of_le_length _ _ bs _ hle
    rw [← hbody] at htake
    rw [hmodifiers, htake]
  rw [← hlist, hitem, htake] at hfront
  rw [← hfront] at hbody
  refine ⟨as ++ s.select :: (s.modifiers ++ us), vs ++ (bs ++ rest), ?_, fun u hu => ?_⟩
  · rw [hq, hbody]
    simp
  rcases hus with rfl | ⟨us, c, rfl, hc⟩
  · rw [List.append_nil, List.getLast?_append, List.getLast?_cons] at hu
    cases hm : s.modifiers.getLast? with
    | none =>
      rw [hm] at hu
      obtain rfl : s.select = u := by simpa using hu
      exact .inr (.inl hselect)
    | some m =>
      rw [hm] at hu
      obtain rfl : m = u := by simpa using hu
      exact .inr (.inr rfl)
  · obtain rfl : c = u := by
      rw [← List.append_assoc, List.cons_append.symm, ← List.append_assoc, List.getLast?_concat] at hu
      exact Option.some.inj hu
    exact .inl (Token.isSymbol_of_isSymbolAt hc)

/-- The first token of a stretch up to the end of the text. -/
theorem IsRead.firstToken?_cells (h : q.IsRead tail) (bs : List Token) :
    Cell.firstToken? (Token.cells bs ++ tail) = bs.head?.map Token.cell := by
  cases bs with
  | nil =>
    rcases h.tail with rfl | ⟨g, rfl⟩
    · rfl
    · rfl
  | cons t bs =>
    rw [Token.cells_cons, List.append_assoc, Cell.firstToken?, List.filter_append]
    unfold ofGap
    split
    · rfl
    · rfl

/-- Where a stretch ends a clause, so do its cells. -/
theorem IsRead.atEnd {bs : List Token} (h : q.IsRead tail) (hb : AtEnd bs) :
    Cell.AtEnd (Token.cells bs ++ tail) := by
  intro d hd
  rw [h.firstToken?_cells] at hd
  obtain ⟨t, ht, rfl⟩ := Option.map_eq_some_iff.1 hd
  exact ⟨t, hb t ht, rfl⟩

/-- What a piece of a clause is ended by is soft. -/
theorem IsRead.soft {as bs : List Token} (h : q.IsRead tail) (hq : q.tokens = as ++ bs)
    (hb : ∀ t ∈ bs.head?, t.EndsItem) : Cell.Soft (Token.cells bs ++ tail) := by
  have hsound := h.sound
  cases bs with
  | nil =>
    rcases h.tail with rfl | ⟨g, rfl⟩
    · exact .of_quiet (.refl [])
    · exact .of_gap (Cell.sound_cons_iff.1 hsound.of_append).1
  | cons t bs =>
    rw [(h.split_one hq).1, List.append_assoc] at hsound
    by_cases hg : t.gap = []
    · have hfit := h.fits hq
      have hcell : Token.cells (t :: bs) ++ tail = t.cell :: (Token.cells bs ++ tail) := by
        simp [hg]
      rw [hcell]
      have hsymbol : ∀ {s : Symbol} {c : Char}, t.isSymbol s = true →
          ((t.kind = .symbol s) → t.text = [c]) → Text.isStop c = true →
          Cell.Soft (t.cell :: (Token.cells bs ++ tail)) := by
        intro s c hs htext hc
        have hk : t.kind = .symbol s := Kind.isSymbol_iff.1 hs
        refine .of_quiet (.of_stops ?_)
        rw [Cell.spell_cons, Token.text_cell, htext hk]
        simpa [Text.Stops] using hc
      have hword : ∀ {k : Keyword}, t.isKeyword k = true →
          k.spelling.head?.map Char.toLower ≠ some 'e' →
          Cell.Soft (t.cell :: (Token.cells bs ++ tail)) := by
        intro k hk hne
        have hkind : t.kind = .keyword k := Kind.isKeyword_iff.1 hk
        rw [Token.cell, hkind] at hfit ⊢
        obtain ⟨c, w, htext, hhead⟩ := Cell.head_of_keyword hfit
        have hstart := (Cell.isWord_of_keyword hfit).1.1
        rw [htext] at hstart ⊢
        refine .of_word (by simpa using hstart) ?_ ?_
        · rintro rfl
          exact hne hhead.symm
        · rintro rfl
          exact hne hhead.symm
      have htext : ∀ {s : Symbol}, t.kind = .symbol s → _ := fun {s} hk =>
        Cell.text_of_symbol (s := s) (t := t.text) (by rw [Token.cell, hk] at hfit; exact hfit)
      rcases hb t rfl with (hr | hs | ⟨k, hk, hkey⟩) | hc | ha | hd
      · exact hsymbol hr (fun hk => (htext hk).2.1 rfl) (by decide)
      · exact hsymbol hs (fun hk => (htext hk).2.2.2 rfl) (by decide)
      · refine hword hkey ?_
        simp only [List.mem_cons, List.not_mem_nil, or_false] at hk
        rcases hk with rfl | rfl | rfl | rfl | rfl | rfl <;> decide
      · exact hsymbol hc (fun hk => (htext hk).2.2.1 rfl) (by decide)
      · exact hword ha (by decide)
      · exact hword hd (by decide)
    · have hcell : Token.cells (t :: bs) ++ tail
          = .gap t.gap :: (t.cell :: (Token.cells bs ++ tail)) := by
        simp [ofGap, hg]
      rw [ofGap, if_neg hg] at hsound
      rw [hcell]
      exact .of_gap (Cell.sound_cons_iff.1 hsound.of_append).1

end Query

end JetAdapter
