import JetAdapter.Query.Basic

/-!
# Edits

An edit replaces a stretch of a text; with an empty stretch it inserts.  A set of edits is made against
one text and applied in one pass (`Edit.applyAll`): insertions at one place keep their order and come
before a replacement that starts there, and no two edits may overlap.  The order in which a set is
applied holds the same edits (`Edit.sorted_perm`), and no later one may come first
(`Edit.pairwise_sorted`).

Steps that have to look at the text again after every change are repeated by `Query.exhaust`.
-/

namespace JetAdapter

/-- A new text for a stretch of a text. -/
structure Edit where
  span : Span
  text : SqlText
deriving DecidableEq

namespace Edit

/-- The insertion of a text at a place. -/
def insert (offset : Nat) (text : SqlText) : Edit :=
  ⟨⟨offset, offset⟩, text⟩

/-- Whether the edit replaces nothing. -/
def isInsertion (e : Edit) : Bool :=
  e.span.start == e.span.stop

/-- Whether an edit may come first: by its start, and at one place insertions first. -/
def comesFirst (a b : Edit) : Bool :=
  a.span.start < b.span.start || (a.span.start == b.span.start && (a.isInsertion || !b.isInsertion))

/-- Puts an edit before the first of the edits that it may come before. -/
def insertSorted (e : Edit) : List Edit → List Edit
  | [] => [e]
  | x :: xs => if comesFirst e x then e :: x :: xs else x :: insertSorted e xs

/-- The edits in the order in which they are applied; equals keep the order they were given in. -/
def sorted (es : List Edit) : List Edit :=
  es.foldr insertSorted []

theorem insertSorted_perm (e : Edit) : ∀ es : List Edit, (insertSorted e es).Perm (e :: es)
  | [] => .refl _
  | x :: xs => by
    unfold insertSorted
    split
    · exact .refl _
    · exact ((insertSorted_perm e xs).cons x).trans (.swap e x xs)

theorem sorted_perm : ∀ es : List Edit, (sorted es).Perm es
  | [] => .refl _
  | e :: es => (insertSorted_perm e (sorted es)).trans ((sorted_perm es).cons e)

theorem comesFirst_iff {a b : Edit} : comesFirst a b ↔ a.span.start < b.span.start ∨
    a.span.start = b.span.start ∧ (a.isInsertion ∨ b.isInsertion = false) := by
  simp [comesFirst]

theorem comesFirst_of_not {a b : Edit} (h : ¬ comesFirst a b) : comesFirst b a := by
  grind [comesFirst_iff]

theorem comesFirst_trans {a b c : Edit} (hab : comesFirst a b) (hbc : comesFirst b c) :
    comesFirst a c := by
  grind [comesFirst_iff]

theorem pairwise_insertSorted (e : Edit) : ∀ es : List Edit, es.Pairwise (comesFirst · ·) →
    (insertSorted e es).Pairwise (comesFirst · ·)
  | [], _ => by simp [insertSorted]
  | x :: xs, h => by
    have ⟨hx, hxs⟩ := List.pairwise_cons.1 h
    unfold insertSorted
    split
    case isTrue hex =>
      refine List.pairwise_cons.2 ⟨fun y hy => ?_, h⟩
      rcases List.mem_cons.1 hy with rfl | hy
      · exact hex
      · exact comesFirst_trans hex (hx y hy)
    case isFalse hex =>
      refine List.pairwise_cons.2 ⟨fun y hy => ?_, pairwise_insertSorted e xs hxs⟩
      rcases List.mem_cons.1 ((insertSorted_perm e xs).mem_iff.1 hy) with rfl | hy
      · exact comesFirst_of_not hex
      · exact hx y hy

theorem pairwise_sorted : ∀ es : List Edit, (sorted es).Pairwise (comesFirst · ·)
  | [] => .nil
  | e :: es => pairwise_insertSorted e _ (pairwise_sorted es)

/-- Applies edits in the order of their starts to what is left of a text from a place on. -/
def applyFrom (offset : Nat) (text : SqlText) : List Edit → Except SqlError SqlText
  | [] => .ok text
  | e :: es =>
    if e.span.start < offset then .error (.syntaxError .overlappingEdits e.span)
    else if e.span.stop < e.span.start then .error (.misplacedEdit e.span)
    else
      match Text.cutAt (e.span.start - offset) text with
      | none => .error (.misplacedEdit e.span)
      | some (kept, fromStart) =>
        match Text.cutAt (e.span.stop - e.span.start) fromStart with
        | none => .error (.misplacedEdit e.span)
        | some (_, fromStop) => (applyFrom e.span.stop fromStop es).map (kept ++ e.text ++ ·)

/-- Applies a set of edits to a text. -/
def applyAll (es : List Edit) (text : SqlText) : Except SqlError SqlText :=
  applyFrom 0 text (sorted es)

end Edit

namespace Query

/-- Applies a step to a text until the step finds nothing to do, at most `rounds` times. -/
def repeatStep (step : Query → Except SqlError (Option Edit)) :
    Nat → SqlText → Except SqlError SqlText
  | 0, text => .ok text
  | rounds + 1, text => do
    match ← step (← ofText text) with
    | none => return text
    | some edit => repeatStep step rounds (← Edit.applyAll [edit] text)

/-- Applies a step to a text until the step finds nothing to do.  Every step that is repeated here uses
up a word of the text, so there are never more rounds than characters. -/
def exhaust (step : Query → Except SqlError (Option Edit)) (text : SqlText) :
    Except SqlError SqlText :=
  repeatStep step (text.length + 1) text

end Query

end JetAdapter
