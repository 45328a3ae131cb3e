import JetAdapter.Proofs.Lookahead

/-!
# Cells of a text

Lexemes come with the gap before them, but edits are made between a gap and a token as well.  So a text is
taken apart further here, into *cells*: each one is a gap or a token.  A list of cells is `Sound` if every
cell ends where the spelling of the ones behind it starts, and then it is what its spelling is cut into
(`Sound.lex_spell`).
-/

namespace JetAdapter

/-- A gap or a token, by its spelling. -/
inductive Cell
  | gap (text : SqlText)
  | token (kind : Kind) (text : SqlText)
deriving DecidableEq

namespace Cell

/-- The spelling of a cell. -/
def text : Cell → SqlText
  | gap t => t
  | token _ t => t

/-- Whether the cell is an unsound token. -/
def isFault : Cell → Bool
  | gap _ => false
  | token k _ => k.isFault

/-- The text of a list of cells. -/
def spell (cs : List Cell) : SqlText :=
  cs.flatMap text

@[simp] theorem text_gap (t : SqlText) : (gap t).text = t := rfl

@[simp] theorem text_token (k : Kind) (t : SqlText) : (token k t).text = t := rfl

@[simp] theorem spell_nil : spell [] = [] := rfl

@[simp] theorem spell_cons (c : Cell) (cs : List Cell) : spell (c :: cs) = c.text ++ spell cs := rfl

@[simp] theorem spell_append (as bs : List Cell) : spell (as ++ bs) = spell as ++ spell bs :=
  List.flatMap_append

/-- Whether a cell is what a text starts with that goes on with a rest behind it. -/
def Fits : Cell → SqlText → Prop
  | gap g, rest => g ≠ [] ∧ Lexeme.scanGap .blanks (g ++ rest) = (g, rest)
  | token k t, rest => Lexeme.Fits ⟨k, [], t⟩ rest

/-- Whether a list of cells is what its spelling is cut into. -/
inductive Sound : List Cell → Prop
  | nil : Sound []
  | cons {c : Cell} {cs : List Cell} (fits : c.Fits (spell cs)) (rest : Sound cs) : Sound (c :: cs)

variable {c : Cell} {cs as bs : List Cell} {k : Kind} {t g rest : SqlText}

theorem Fits.text_ne_nil (h : c.Fits rest) : c.text ≠ [] := by
  cases c with
  | gap g => exact h.1
  | token k t =>
    obtain ⟨-, d, w, ht, -⟩ := h
    intro hn
    have : t = [] := hn
    subst this
    cases ht

theorem sound_cons_iff : Sound (c :: cs) ↔ c.Fits (spell cs) ∧ Sound cs := by
  constructor
  · rintro ⟨⟩
    constructor <;> assumption
  · rintro ⟨h, hs⟩
    exact .cons h hs

theorem Sound.of_append (h : Sound (as ++ bs)) : Sound bs := by
  induction as with
  | nil => exact h
  | cons c as ih => exact ih (sound_cons_iff.1 h).2

/-- Every cell fits where it stands. -/
theorem Sound.fits (h : Sound cs) (hc : c ∈ cs) : ∃ r, c.Fits r := by
  obtain ⟨as, bs, rfl⟩ := List.append_of_mem hc
  exact ⟨_, (sound_cons_iff.1 h.of_append).1⟩

theorem Sound.eq_nil_of_byteSize (h : Sound cs) (hn : Text.byteSize (spell cs) = 0) : cs = [] := by
  cases h with
  | nil => rfl
  | @cons c cs fits rest =>
    obtain ⟨d, w, hd⟩ := List.exists_cons_of_ne_nil fits.text_ne_nil
    have := d.utf8Size_pos
    rw [spell_cons, hd, List.cons_append, Text.byteSize_cons] at hn
    omega

theorem Sound.spell_ne_nil (h : Sound (c :: cs)) : spell (c :: cs) ≠ [] := by
  intro hn
  have := h.eq_nil_of_byteSize (by rw [hn]; rfl)
  cases this

/-! ### From cells to lexemes -/

/-- The lexemes that cells make up behind a gap. -/
def lexemes (gap : SqlText) : List Cell → List Lexeme
  | [] => [⟨.eof, gap, []⟩]
  | .gap g :: cs => lexemes (gap ++ g) cs
  | .token k t :: cs => ⟨k, gap, t⟩ :: lexemes [] cs

/-- Behind a gap there is a token. -/
theorem Fits.not_gap (h : (gap g).Fits (spell cs)) (hs : Sound cs) :
    cs = [] ∨ ∃ k t ds, cs = token k t :: ds := by
  cases cs with
  | nil => exact .inl rfl
  | cons c cs =>
    cases c with
    | gap g' =>
      have hb := Lexeme.bare_of_scanGap h.2
      have hg := (sound_cons_iff.1 hs).1
      rw [Lexeme.Bare, spell_cons, text_gap, hg.2] at hb
      exact absurd (congrArg Prod.fst hb) hg.1
    | token k t => exact .inr ⟨k, t, cs, rfl⟩

theorem Sound.lex_append_spell (hs : Sound cs) (hg : g = [] ∨ (gap g).Fits (spell cs)) :
    lex (g ++ spell cs) = lexemes g cs := by
  induction hs generalizing g with
  | nil =>
    have hend : Lexeme.Ends ⟨.eof, g, []⟩ := by
      refine ⟨rfl, rfl, ?_⟩
      rcases hg with rfl | hg
      · rfl
      · simpa using hg.2
    exact hend.lex_eq
  | @cons c cs fits rest ih =>
    cases c with
    | gap g' =>
      have hnil : g = [] := by
        rcases hg with hg | hg
        · exact hg
        · rcases hg.not_gap (.cons fits rest) with h | ⟨k, t, ds, h⟩
          · cases h
          · cases h
      subst hnil
      rw [lexemes, List.nil_append, List.nil_append]
      exact ih (.inr fits)
    | token k t =>
      have hfits : Lexeme.Fits ⟨k, g, t⟩ (spell cs) := by
        rcases hg with rfl | hg
        · exact fits
        · exact Lexeme.Fits.regap fits hg.2
      rw [lexemes, spell_cons, text_token, hfits.lex_eq]
      congr 1
      exact ih (.inl rfl)

/-- Sound cells are what their spelling is cut into. -/
theorem Sound.lex_spell (hs : Sound cs) : lex (spell cs) = lexemes [] cs :=
  hs.lex_append_spell (.inl rfl)

/-! ### From lexemes to cells -/

/-- The cell of a gap, if there is one. -/
def ofGap (g : SqlText) : List Cell :=
  if g = [] then [] else [gap g]

@[simp] theorem ofGap_nil : ofGap [] = [] := rfl

@[simp] theorem spell_ofGap (g : SqlText) : spell (ofGap g) = g := by
  unfold ofGap
  split
  · next h => rw [h]; rfl
  · simp

theorem lexemes_ofGap_append (g g' : SqlText) (cs : List Cell) :
    lexemes g (ofGap g' ++ cs) = lexemes (g ++ g') cs := by
  unfold ofGap
  split
  · next h => rw [h, List.append_nil, List.nil_append]
  · rfl

end Cell

namespace Lexeme

open Cell (Sound ofGap)

/-- The cells of a token. -/
def cells (l : Lexeme) : List Cell :=
  ofGap l.gap ++ [.token l.kind l.text]

@[simp] theorem spell_cells (l : Lexeme) : Cell.spell l.cells = l.gap ++ l.text := by
  simp [cells]

/-- The cells of lexemes; the last one marks the end and has only a gap. -/
def cellsOf : List Lexeme → List Cell
  | [] => []
  | [l] => ofGap l.gap
  | l :: m :: ls => l.cells ++ cellsOf (m :: ls)

theorem cellsOf_cons {l : Lexeme} {ls : List Lexeme} (h : ls ≠ []) :
    cellsOf (l :: ls) = l.cells ++ cellsOf ls := by
  cases ls with
  | nil => exact absurd rfl h
  | cons m ls => rfl

theorem Lexed.ne_nil {ls : List Lexeme} (h : Lexed ls) : ls ≠ [] := by
  cases h with
  | last ends => exact List.cons_ne_nil _ _
  | cons fits rest => exact List.cons_ne_nil _ _

theorem spell_cellsOf {ls : List Lexeme} (h : Lexed ls) : Cell.spell (cellsOf ls) = spell ls := by
  induction h with
  | @last l ends => simp [cellsOf, ends.2.1]
  | @cons l ls fits rest ih =>
    rw [cellsOf_cons rest.ne_nil, Cell.spell_append, spell_cells, ih, spell_cons, List.append_assoc]

theorem sound_ofGap_append {l : Lexeme} {cs : List Cell} (hs : Sound (.token l.kind l.text :: cs))
    (h : scanGap .blanks (l.gap ++ (l.text ++ Cell.spell cs)) = (l.gap, l.text ++ Cell.spell cs)) :
    Sound (l.cells ++ cs) := by
  unfold cells ofGap
  split
  · exact hs
  · next hg => exact .cons ⟨hg, h⟩ hs

/-- The cells of a text are sound. -/
theorem Lexed.sound {ls : List Lexeme} (h : Lexed ls) : Sound (cellsOf ls) := by
  induction h with
  | @last l ends =>
    show Sound (ofGap l.gap)
    unfold ofGap
    split
    · exact .nil
    · next hg => exact .cons ⟨hg, by simpa using ends.2.2⟩ .nil
  | @cons l ls fits rest ih =>
    rw [cellsOf_cons rest.ne_nil]
    rw [← spell_cellsOf rest] at fits
    exact sound_ofGap_append (.cons fits.withoutGap ih) fits.1

/-- A cell of lexemes is a gap or one of their tokens. -/
theorem mem_cellsOf {c : Cell} {ls : List Lexeme} (h : c ∈ cellsOf ls) :
    (∃ g, c = .gap g) ∨ ∃ l ∈ ls, c = .token l.kind l.text := by
  have hgap : ∀ {g : SqlText}, c ∈ ofGap g → ∃ g, c = .gap g := by
    intro g hc
    unfold ofGap at hc
    split at hc
    · cases hc
    · exact ⟨g, List.mem_singleton.1 hc⟩
  induction ls with
  | nil => cases h
  | cons l ls ih =>
    cases ls with
    | nil => exact .inl (hgap h)
    | cons m ls =>
      rw [cellsOf, List.mem_append] at h
      rcases h with h | h
      · rcases List.mem_append.1 h with h | h
        · exact .inl (hgap h)
        · exact .inr ⟨l, List.mem_cons_self, List.mem_singleton.1 h⟩
      · rcases ih h with hg | ⟨l', hl', hc⟩
        · exact .inl hg
        · exact .inr ⟨l', List.mem_cons_of_mem _ hl', hc⟩

end Lexeme

namespace Cell

/-- The cells of a text. -/
def ofText (t : SqlText) : List Cell :=
  Lexeme.cellsOf (lex t)

theorem sound_ofText (t : SqlText) : Sound (ofText t) :=
  (Lexeme.lexed_lex t).sound

@[simp] theorem spell_ofText (t : SqlText) : spell (ofText t) = t := by
  rw [ofText, Lexeme.spell_cellsOf (Lexeme.lexed_lex t), spell_lex]

theorem cellsOf_lexemes {g : SqlText} {cs : List Cell} (hs : Sound cs) :
    (g = [] ∨ (gap g).Fits (spell cs)) → Lexeme.cellsOf (lexemes g cs) = ofGap g ++ cs := by
  induction hs generalizing g with
  | nil =>
    intro _
    rw [List.append_nil]
    rfl
  | @cons c cs fits rest ih =>
    intro hg
    cases c with
    | gap g' =>
      have hnil : g = [] := by
        rcases hg with hg | hg
        · exact hg
        · rcases hg.not_gap (.cons fits rest) with h | ⟨k, t, ds, h⟩
          · cases h
          · cases h
      subst hnil
      rw [lexemes, List.nil_append, ih (.inr fits), ofGap, if_neg fits.1]
      rfl
    | token k t =>
      have hne : lexemes [] cs ≠ [] := by
        rw [← rest.lex_spell]
        exact (Lexeme.lexed_lex _).ne_nil
      rw [lexemes, Lexeme.cellsOf_cons hne, ih (.inl rfl), Lexeme.cells, List.append_assoc]
      rfl

/-- Sound cells are the cells of their spelling. -/
theorem Sound.ofText_spell {cs : List Cell} (hs : Sound cs) : ofText (spell cs) = cs := by
  rw [ofText, hs.lex_spell, cellsOf_lexemes hs (.inl rfl)]
  rfl

theorem ofText_cons {c : Char} {t : SqlText} (h : Lexeme.Bare (c :: t)) :
    ofText (c :: t)
      = token (Lexeme.scan c t).kind (Lexeme.scan c t).text :: ofText (Lexeme.scan c t).rest := by
  rw [ofText, Lexeme.lex_of_scanGap h, Lexeme.cellsOf_cons (Lexeme.lexed_lex _).ne_nil]
  rfl

end Cell

end JetAdapter
