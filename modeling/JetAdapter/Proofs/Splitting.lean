import JetAdapter.Proofs.Pieces
import JetAdapter.Proofs.Restoring

/-!
# Splitting loses nothing

A text is split at its tokens `?`, which need not be all of its question marks, and values are bound to them in order.
That is told here by places: the texts of the statement are the stretches that these tokens leave
(`Marked.forall₂_holds_texts`), and its pieces are what comes of pushing texts and parameters in turn
(`Marked.build_alternate`), where empty texts are dropped.

Nothing is lost by it, since a token `?` has no spelling but this one: written with markers `?`, the statement is the
text that was split, faults and all (`Statement.sql_of_parse`).  So splitting it again gives the same statement.
-/

namespace JetAdapter

open Lexeme Marked

variable {α β : Type}

/-! ### Writing what was cut out -/

namespace Marked

/-- Where every mark is written as the token it was cut out for, the text comes out again. -/
theorem render_ofLexemes {mark? : Kind → Option α} {write : α → SqlText} {ls : List Lexeme}
    (h : ∀ l ∈ ls, ∀ a, mark? l.kind = some a → write a = l.text) : (ofLexemes mark? ls).render write = spell ls := by
  induction ls with
  | nil => rfl
  | cons l ls ih =>
    obtain ⟨hl, hls⟩ := List.forall_mem_cons.1 h
    rw [ofLexemes, spell_cons, ← ih hls]
    cases hm : mark? l.kind with
    | none => rw [render_prepend, List.append_assoc]
    | some a => rw [render_prepend, render_cons, hl a hm]

/-- Marks that are all written alike do not matter for the text. -/
theorem render_const_congr {m : Marked α} {n : Marked β} (w : SqlText) (h : m.texts = n.texts) :
    m.render (fun _ => w) = n.render fun _ => w := by
  obtain ⟨hhead, htail⟩ := List.cons.inj h
  have hflat : ∀ {γ : Type} (tail : List (γ × SqlText)),
      tail.flatMap (fun p => w ++ p.2) = (tail.map Prod.snd).flatMap (w ++ ·) :=
    fun tail => (List.flatMap_map ..).symm
  change m.head ++ m.tail.flatMap (fun p => w ++ p.2) = n.head ++ n.tail.flatMap fun p => w ++ p.2
  rw [hhead, hflat, hflat, htail]

/-! ### Pushing texts and marks in turn -/

/-- Texts and marks in turn, with a text at both ends. -/
def alternate : List SqlText → List α → List (Segment α)
  | t :: ts, a :: as => .text t :: .mark a :: alternate ts as
  | ts, _ => ts.map .text

theorem ofSegments_alternate (m : Marked α) : ofSegments (alternate m.texts m.marks) = m := by
  obtain ⟨head, tail⟩ := m
  induction tail generalizing head with
  | nil => simp [texts, marks, alternate, ofSegments, prepend]
  | cons pt tail ih =>
    obtain ⟨a, t⟩ := pt
    show prepend head (cons a (ofSegments (alternate (texts ⟨t, tail⟩) (marks ⟨t, tail⟩)))) = _
    rw [ih]
    simp [prepend, cons]

/-- The pieces of a marked text are what comes of pushing its texts and marks in turn. -/
theorem build_alternate (m : Marked α) : build (alternate m.texts m.marks) = m.segments := by
  rw [← segments_ofSegments, ofSegments_alternate]

theorem apart_segments (m : Marked α) : Segment.Apart m.segments := by
  rw [← build_segments]
  exact apart_build m.segments

end Marked

/-! ### Tokens `?` -/

/-- The tokens `?` of a text, in order. -/
def placeholderTokens (text : SqlText) : List PlacedLexeme :=
  (tokenize text).filter fun l => l.kind = .placeholder

theorem Lexeme.text_of_placeholder {ls : List Lexeme} (h : Lexed ls) :
    ∀ l ∈ ls, l.kind = .placeholder → l.text = ['?'] := by
  induction h with
  | last ends =>
    rw [List.forall_mem_singleton, ends.1]
    exact nofun
  | cons fits rest ih =>
    refine List.forall_mem_cons.2 ⟨fun hk => ?_, ih⟩
    have htext := (fits.marks (by rw [hk]; rfl)).2.1
    rwa [hk] at htext

namespace Statement

variable {s : Statement} {t : SqlText} {values : List SqlValue}

theorem holds_texts_placeholders (t : SqlText) :
    List.Forall₂ (Span.Holds t) (stretchesFrom 0 (Text.byteSize t) (placeholderTokens t)) (placeholders t).texts := by
  have h := forall₂_holds_texts (fun k => if k = .placeholder then some () else none) t
  have hsome : ∀ k : Kind, (if k = .placeholder then some () else none).isSome = decide (k = .placeholder) := by
    intro k
    split <;> simp_all
  simp only [hsome] at h
  exact h

theorem length_placeholders (t : SqlText) : (placeholders t).tail.length = (placeholderTokens t).length := by
  have h := (holds_texts_placeholders t).length_eq
  have hlength : ∀ (ms : List PlacedLexeme) (offset stop : Nat),
      (stretchesFrom offset stop ms).length = ms.length + 1 := by
    intro ms
    induction ms with
    | nil => intro offset stop; rfl
    | cons m ms ih => intro offset stop; rw [stretchesFrom, List.length_cons, ih, List.length_cons]
  rw [hlength, length_texts, length_marks] at h
  exact (Nat.succ.inj h).symm

/-- With as many values as tokens `?` the text is split, with any other number it is refused. -/
theorem parse_eq (t : SqlText) (values : List SqlValue) :
    parse t values = if values.length = (placeholderTokens t).length
      then .ok ((placeholders t).withMarks (values.map fun v => ⟨v, none⟩))
      else .error (.parameterMismatch (placeholderTokens t).length values.length) := by
  simp only [parse, length_placeholders, eq_comm (a := values.length)]

/-- A statement that was split from a text is written as that text. -/
theorem sql_of_parse (h : parse t values = .ok s) : s.sql = t := by
  have hcut : (placeholders t).render (fun _ => ['?']) = spell (lex t) := by
    refine render_ofLexemes fun l hl a ha => ?_
    have hk : l.kind = .placeholder := by
      by_contra hk
      rw [if_neg hk] at ha
      cases ha
    exact (text_of_placeholder (lexed_lex t) l hl hk).symm
  rw [sql, render_const_congr ['?'] (texts_of_parse h), hcut, spell_lex]

end Statement

/-- **Splitting loses nothing.**  A text is split if and only if there are as many values as tokens `?` in it, and it is
refused with both numbers otherwise.  The pieces are what comes of pushing the stretches that these tokens leave and
the parameters in turn: no text among them is empty and no two meet.  The parameters are the values in order, without
ordinals.  Written with markers `?` the statement is the text again, so it is split into the same statement. -/
theorem split_losslessly (t : SqlText) (values : List SqlValue) :
    ((∃ s, Statement.parse t values = .ok s) ↔ values.length = (placeholderTokens t).length) ∧
    (values.length ≠ (placeholderTokens t).length →
      Statement.parse t values = .error (.parameterMismatch (placeholderTokens t).length values.length)) ∧
    ∀ s, Statement.parse t values = .ok s →
      s.sql = t ∧
      s.parameters = values.map (fun v => ⟨v, none⟩) ∧
      Segment.Apart s.segments ∧
      (∃ texts, List.Forall₂ (Span.Holds t) (stretchesFrom 0 (Text.byteSize t) (placeholderTokens t)) texts ∧
        s.segments = build (alternate texts s.parameters)) ∧
      Statement.parse s.sql values = .ok s := by
  refine ⟨?_, fun hne => ?_, fun s hs => ?_⟩
  · rw [Statement.parse_eq]
    split
    · next hl => exact ⟨fun _ => hl, fun _ => ⟨_, rfl⟩⟩
    · next hl =>
      refine ⟨?_, fun h => absurd h hl⟩
      rintro ⟨s, hs⟩
      cases hs
  · rw [Statement.parse_eq, if_neg hne]
  · have hsql := Statement.sql_of_parse hs
    refine ⟨hsql, Statement.parameters_of_parse hs, apart_segments s, ⟨s.texts, ?_, ?_⟩, by rw [hsql, hs]⟩
    · rw [Statement.texts_of_parse hs]
      exact Statement.holds_texts_placeholders t
    · exact (build_alternate s).symm

end JetAdapter
