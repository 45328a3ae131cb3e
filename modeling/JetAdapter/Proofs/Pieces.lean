import JetAdapter.Proofs.Tracker

/-!
# Building marked texts

A marked text can be put together by pushing its pieces one by one, where an empty text is dropped and a text that
meets another one goes on with it (`Marked.push`).  What is built so has no empty texts and no two texts that meet
(`Segment.Apart`), and it is what the pieces are put together to at once (`segments_ofSegments`).  The pieces of a
marked text are such already, so they make the same marked text again (`ofSegments_segments`).

Pieces may be changed while they are pushed.  If each mark is looked up, the marked text with what is found comes out
(`build?_segments`).
-/

namespace JetAdapter

variable {α β : Type}

/-! ### Pieces -/

/-- Whether no text is empty and no two texts meet. -/
inductive Segment.Apart : List (Segment α) → Prop
  | nil : Apart []
  | last {t : SqlText} (nonempty : t ≠ []) : Apart [.text t]
  | mark (a : α) {rest : List (Segment α)} (h : Apart rest) : Apart (.mark a :: rest)
  | text {t : SqlText} (nonempty : t ≠ []) (a : α) {rest : List (Segment α)} (h : Apart rest) :
      Apart (.text t :: .mark a :: rest)

/-- Whether pieces are the same text, or marks of which one stands for the other. -/
inductive Segment.Like (r : α → β → Prop) : Segment α → Segment β → Prop
  | text (t : SqlText) : Like r (.text t) (.text t)
  | mark {a : α} {b : β} (h : r a b) : Like r (.mark a) (.mark b)

/-- The piece with what is found for its mark. -/
def Segment.fill? (find : α → Option β) : Segment α → Option (Segment β)
  | .text t => some (.text t)
  | .mark a => (find a).map .mark

namespace Marked

open Segment

theorem segments_cons (t u : SqlText) (a : α) (tail : List (α × SqlText)) :
    segments ⟨t, (a, u) :: tail⟩ = textSegment t ++ .mark a :: segments ⟨u, tail⟩ := rfl

theorem ofSegments_textSegment_append (t : SqlText) (pieces : List (Segment α)) :
    ofSegments (textSegment t ++ pieces) = (ofSegments pieces).prepend t := by
  by_cases h : t = []
  · rw [textSegment, if_pos h, h]
    rfl
  · rw [textSegment, if_neg h]
    rfl

/-- A marked text is what its pieces are put together to. -/
theorem ofSegments_segments (m : Marked α) : ofSegments m.segments = m := by
  obtain ⟨head, tail⟩ := m
  induction tail generalizing head with
  | nil =>
    have h := ofSegments_textSegment_append (α := α) head []
    simpa [segments, prepend, ofSegments] using h
  | cons pt tail ih =>
    obtain ⟨a, t⟩ := pt
    rw [segments_cons, ofSegments_textSegment_append, ofSegments, ih]
    simp [prepend, cons]

theorem segments_injective : Function.Injective (segments : Marked α → List (Segment α)) :=
  Function.LeftInverse.injective ofSegments_segments

/-- Marked texts with the same texts have like pieces where their marks stand for each other. -/
theorem forall₂_segments {r : α → β → Prop} {m : Marked α} {bs : List β} (h : List.Forall₂ r m.marks bs) :
    List.Forall₂ (Like r) m.segments (m.withMarks bs).segments := by
  have like : ∀ t : SqlText, List.Forall₂ (Like r) (textSegment t) (textSegment t) := by
    intro t
    by_cases ht : t = []
    · rw [textSegment, textSegment, if_pos ht, if_pos ht]
      exact .nil
    · rw [textSegment, textSegment, if_neg ht, if_neg ht]
      exact .cons (.text t) .nil
  obtain ⟨head, tail⟩ := m
  induction tail generalizing head bs with
  | nil =>
    cases h
    simpa [segments, withMarks] using like head
  | cons pt tail ih =>
    obtain ⟨a, t⟩ := pt
    cases h with
    | cons hab hrest => exact List.rel_append (like head) (.cons (.mark hab) (ih t hrest))

/-! ### Pushing -/

/-- Pushes a piece behind others.  An empty text is dropped, and a text behind another one goes on with it. -/
def push (built : List (Segment α)) : Segment α → List (Segment α)
  | .mark a => built ++ [.mark a]
  | .text t =>
    if t = [] then built
    else
      match built.getLast? with
      | some (.text u) => built.dropLast ++ [.text (u ++ t)]
      | _ => built ++ [.text t]

/-- What is there when pieces have been pushed one by one. -/
def build (pieces : List (Segment α)) : List (Segment α) :=
  pieces.foldl push []

theorem push_text_nil (t : SqlText) : push ([] : List (Segment α)) (.text t) = textSegment t := rfl

theorem push_text_behind_mark (built : List (Segment α)) (a : α) (t : SqlText) :
    push (built ++ [.mark a]) (.text t) = built ++ .mark a :: textSegment t := by
  by_cases h : t = []
  · rw [push, if_pos h, textSegment, if_pos h]
  · rw [push, if_neg h, List.getLast?_concat, textSegment, if_neg h]
    simp

theorem push_text_behind_text (built : List (Segment α)) (u t : SqlText) :
    push (built ++ [.text u]) (.text t) = built ++ [.text (u ++ t)] := by
  by_cases h : t = []
  · rw [push, if_pos h, h, List.append_nil]
  · rw [push, if_neg h, List.getLast?_concat, List.dropLast_concat]

/-- Behind a mark it does not matter what stands before it. -/
theorem push_append_mark (before : List (Segment α)) (a : α) (rest : List (Segment α)) (p : Segment α) :
    push (before ++ .mark a :: rest) p = before ++ .mark a :: push rest p := by
  cases p with
  | mark b => simp [push]
  | text t =>
    rcases List.eq_nil_or_concat' rest with rfl | ⟨front, last, rfl⟩
    · rw [push_text_behind_mark, push_text_nil]
    · have hassoc : before ++ .mark a :: (front ++ [last]) = (before ++ .mark a :: front) ++ [last] := by simp
      rw [hassoc]
      cases last with
      | mark b =>
        rw [push_text_behind_mark, push_text_behind_mark]
        simp
      | text u =>
        rw [push_text_behind_text, push_text_behind_text]
        simp

end Marked

/-- Pushing keeps texts apart and nonempty. -/
theorem Segment.Apart.push {built : List (Segment α)} (h : Apart built) (p : Segment α) :
    Apart (Marked.push built p) := by
  induction h with
  | nil =>
    cases p with
    | mark a => exact .mark a .nil
    | text t =>
      rw [Marked.push_text_nil, Marked.textSegment]
      by_cases ht : t = []
      · rw [if_pos ht]
        exact .nil
      · rw [if_neg ht]
        exact .last ht
  | @last u nonempty =>
    cases p with
    | mark a => exact .text nonempty a .nil
    | text t =>
      have hpush := Marked.push_text_behind_text ([] : List (Segment α)) u t
      rw [List.nil_append, List.nil_append] at hpush
      rw [hpush]
      exact .last (List.append_ne_nil_of_left_ne_nil nonempty t)
  | @mark a rest h ih =>
    have hpush := Marked.push_append_mark [] a rest p
    rw [List.nil_append, List.nil_append] at hpush
    rw [hpush]
    exact .mark a ih
  | @text u nonempty a rest h ih =>
    have hpush := Marked.push_append_mark [.text u] a rest p
    rw [List.singleton_append, List.singleton_append] at hpush
    rw [hpush]
    exact .text nonempty a ih

namespace Marked

open Segment

theorem apart_build (pieces : List (Segment α)) : Apart (build pieces) := by
  have run : ∀ (pieces built : List (Segment α)), Apart built → Apart (pieces.foldl push built) := by
    intro pieces
    induction pieces with
    | nil => exact fun built h => h
    | cons p pieces ih => exact fun built h => ih (push built p) (h.push p)
  exact run pieces [] .nil

theorem ofSegments_append_congr {ps qs : List (Segment α)} (h : ofSegments ps = ofSegments qs)
    (front : List (Segment α)) : ofSegments (front ++ ps) = ofSegments (front ++ qs) := by
  induction front with
  | nil => exact h
  | cons p front ih =>
    cases p with
    | text t => rw [List.cons_append, List.cons_append, ofSegments, ofSegments, ih]
    | mark a => rw [List.cons_append, List.cons_append, ofSegments, ofSegments, ih]

/-- A piece that was pushed and one that is still to come make the same marked text. -/
theorem ofSegments_push_append (built : List (Segment α)) (p : Segment α) (rest : List (Segment α)) :
    ofSegments (push built p ++ rest) = ofSegments (built ++ p :: rest) := by
  cases p with
  | mark a => rw [push, List.append_assoc, List.singleton_append]
  | text t =>
    rcases List.eq_nil_or_concat' built with rfl | ⟨front, last, rfl⟩
    · exact ofSegments_textSegment_append t rest
    · cases last with
      | mark a =>
        rw [push_text_behind_mark, List.append_assoc, List.append_assoc]
        apply ofSegments_append_congr
        show cons a (ofSegments (textSegment t ++ rest)) = _
        rw [ofSegments_textSegment_append]
        rfl
      | text u =>
        rw [push_text_behind_text, List.append_assoc, List.append_assoc]
        apply ofSegments_append_congr
        exact (prepend_prepend u t (ofSegments rest)).symm

theorem ofSegments_build (pieces : List (Segment α)) : ofSegments (build pieces) = ofSegments pieces := by
  have run : ∀ pieces built : List (Segment α), ofSegments (pieces.foldl push built)
      = ofSegments (built ++ pieces) := by
    intro pieces
    induction pieces with
    | nil => intro built; rw [List.foldl_nil, List.append_nil]
    | cons p pieces ih => intro built; rw [List.foldl_cons, ih, ofSegments_push_append]
  exact run pieces []

theorem segments_ofSegments_of_apart {pieces : List (Segment α)} (h : Apart pieces) :
    (ofSegments pieces).segments = pieces := by
  induction h with
  | nil => rfl
  | last nonempty => simp [ofSegments, prepend, segments, textSegment, nonempty]
  | @mark a rest h ih =>
    show .mark a :: (ofSegments rest).segments = _
    rw [ih]
  | @text t nonempty a rest h ih =>
    show textSegment (t ++ []) ++ .mark a :: (ofSegments rest).segments = _
    rw [ih, List.append_nil, textSegment, if_neg nonempty, List.singleton_append]

/-- Pushing pieces one by one gives those of the marked text that they are put together to. -/
theorem segments_ofSegments (pieces : List (Segment α)) : (ofSegments pieces).segments = build pieces := by
  rw [← ofSegments_build]
  exact segments_ofSegments_of_apart (apart_build pieces)

theorem build_segments (m : Marked α) : build m.segments = m.segments := by
  rw [← segments_ofSegments, ofSegments_segments]

/-! ### Pushing what is found -/

/-- Pushes pieces one by one, each with what is found for its mark. -/
def build? (find : α → Option β) (pieces : List (Segment α)) : Option (List (Segment β)) :=
  pieces.foldlM (fun built p => (p.fill? find).map (push built)) []

theorem build?_eq (find : α → Option β) (pieces : List (Segment α)) :
    build? find pieces = (pieces.mapM (fill? find)).map build := by
  have run : ∀ (pieces : List (Segment α)) (built : List (Segment β)),
      pieces.foldlM (fun built p => (p.fill? find).map (push built)) built
        = (pieces.mapM (fill? find)).map (List.foldl push built) := by
    intro pieces
    induction pieces with
    | nil => intro built; rfl
    | cons p pieces ih =>
      intro built
      rw [List.foldlM_cons, List.mapM_cons]
      cases p.fill? find with
      | none => rfl
      | some q =>
        show pieces.foldlM _ (push built q) = _
        rw [ih]
        cases pieces.mapM (fill? find) <;> rfl
  exact run pieces []

theorem mapM_fill?_textSegment_append (find : α → Option β) (t : SqlText) (pieces : List (Segment α)) :
    (textSegment t ++ pieces).mapM (fill? find) = (pieces.mapM (fill? find)).map (textSegment t ++ ·) := by
  by_cases h : t = []
  · simp [textSegment, h]
  · rw [textSegment, if_neg h, textSegment, if_neg h, List.singleton_append, List.mapM_cons]
    cases pieces.mapM (fill? find) <;> rfl

/-- What is found for the pieces of a marked text is what is found for its marks. -/
theorem mapM_fill?_segments (find : α → Option β) (m : Marked α) :
    m.segments.mapM (fill? find) = (m.marks.mapM find).map fun bs => (m.withMarks bs).segments := by
  obtain ⟨head, tail⟩ := m
  induction tail generalizing head with
  | nil =>
    have h := mapM_fill?_textSegment_append find head []
    simpa [segments, marks, withMarks] using h
  | cons pt tail ih =>
    obtain ⟨a, t⟩ := pt
    rw [segments_cons, mapM_fill?_textSegment_append, List.mapM_cons, ih]
    show _ = ((a :: marks ⟨t, tail⟩).mapM find).map _
    rw [List.mapM_cons, fill?]
    cases find a with
    | none => rfl
    | some b =>
      cases (marks ⟨t, tail⟩).mapM find with
      | none => rfl
      | some bs => rfl

/-- The marked text with what is found for its marks is built by pushing its pieces. -/
theorem build?_segments (find : α → Option β) (m : Marked α) :
    build? find m.segments = (m.marks.mapM find).map fun bs => (m.withMarks bs).segments := by
  rw [build?_eq, mapM_fill?_segments, Option.map_map]
  congr 1
  funext bs
  exact build_segments (m.withMarks bs)

end Marked

end JetAdapter
