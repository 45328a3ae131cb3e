import JetAdapter.Proofs.EditSets

/-!
# Insertions

Edits that only insert never overlap, so a set of them can always be applied.  What it makes of a text is told
place by place: before every character, and at the end, stands what the set inserts there, in the order of the set
(`Edit.applyAll_insertions`).  `weave` writes a stretch of a text that way, and falls apart where the stretch does
(`weave_append`).
-/

namespace JetAdapter

variable {ins ins' : Nat → SqlText} {place offset : Nat} {s t text : SqlText}

/-! ### Weaving -/

/-- A stretch of a text with something inserted before each character, by the place where it stands; the stretch
starts at a place. -/
def Text.weave (ins : Nat → SqlText) (place : Nat) : SqlText → SqlText
  | [] => []
  | c :: t => ins place ++ c :: weave ins (place + c.utf8Size) t

namespace Text

theorem weave_cons (ins : Nat → SqlText) (place : Nat) (c : Char) (t : SqlText) :
    weave ins place (c :: t) = ins place ++ c :: weave ins (place + c.utf8Size) t := rfl

theorem weave_append :
    weave ins place (s ++ t) = weave ins place s ++ weave ins (place + byteSize s) t := by
  induction s generalizing place with
  | nil => rfl
  | cons c s ih =>
    rw [List.cons_append, weave_cons, weave_cons, ih, byteSize_cons, Nat.add_assoc, List.append_assoc,
      List.cons_append]

theorem weave_congr (h : ∀ p, place ≤ p → p < place + byteSize t → ins p = ins' p) :
    weave ins place t = weave ins' place t := by
  induction t generalizing place with
  | nil => rfl
  | cons c t ih =>
    have hpos := c.utf8Size_pos
    rw [weave_cons, weave_cons, h place (Nat.le_refl _) (by rw [byteSize_cons]; omega), ih fun p hle hlt => ?_]
    exact h p (by omega) (by rw [byteSize_cons]; omega)

/-- Where nothing is inserted the stretch stays what it is. -/
theorem weave_of_quiet (h : ∀ p, place ≤ p → p < place + byteSize t → ins p = []) :
    weave ins place t = t := by
  have hnone : ∀ (place : Nat) (t : SqlText), weave (fun _ => []) place t = t := by
    intro place t
    induction t generalizing place with
    | nil => rfl
    | cons c t ih => rw [weave_cons, ih, List.nil_append]
  have hquiet : weave ins place t = weave (fun _ => []) place t := weave_congr h
  rw [hquiet, hnone]

/-- Where something is inserted only at the start of a stretch, it stands before the stretch. -/
theorem weave_of_quiet_behind (ht : t ≠ []) (h : ∀ p, place < p → p < place + byteSize t → ins p = []) :
    weave ins place t = ins place ++ t := by
  obtain ⟨c, u, rfl⟩ := List.exists_cons_of_ne_nil ht
  have hpos := c.utf8Size_pos
  rw [weave_cons, weave_of_quiet fun p hle hlt => h p (by omega) (by rw [byteSize_cons]; omega)]

/-- The same stretch at another place. -/
theorem weave_shift (distance : Nat) (h : ∀ p, place ≤ p → p < place + byteSize t → ins' (p + distance) = ins p) :
    weave ins' (place + distance) t = weave ins place t := by
  induction t generalizing place with
  | nil => rfl
  | cons c t ih =>
    have hpos := c.utf8Size_pos
    have hplace : place + distance + c.utf8Size = place + c.utf8Size + distance := by omega
    rw [weave_cons, weave_cons, h place (Nat.le_refl _) (by rw [byteSize_cons]; omega), hplace,
      ih fun p hle hlt => h p (by omega) (by rw [byteSize_cons]; omega)]

end Text

/-! ### Sets of insertions -/

namespace Edit

variable {e : Edit} {es fs : List Edit}

/-- What some edits insert at a place, in their order. -/
def insertedAt (es : List Edit) (place : Nat) : SqlText :=
  (es.filter fun e => e.span.start == place).flatMap Edit.text

/-- Whether an edit only inserts, and does so at a place of the text. -/
def InsertsInto (text : SqlText) (e : Edit) : Prop :=
  e.span.stop = e.span.start ∧ ∃ before after, text = before ++ after ∧ Text.byteSize before = e.span.start

@[simp] theorem insertedAt_nil (place : Nat) : insertedAt [] place = [] := rfl

theorem insertedAt_cons (e : Edit) (es : List Edit) (place : Nat) :
    insertedAt (e :: es) place = (if e.span.start = place then e.text else []) ++ insertedAt es place := by
  rw [insertedAt, List.filter_cons]
  by_cases he : e.span.start = place
  · simp [he, insertedAt]
  · simp [he, insertedAt]

theorem insertedAt_insert (offset place : Nat) (s : SqlText) :
    insertedAt [insert offset s] place = if offset = place then s else [] := by
  rw [insertedAt_cons, insertedAt_nil, List.append_nil]
  rfl

@[simp] theorem insertedAt_append (es fs : List Edit) (place : Nat) :
    insertedAt (es ++ fs) place = insertedAt es place ++ insertedAt fs place := by
  rw [insertedAt, List.filter_append, List.flatMap_append]
  rfl

theorem insertedAt_eq_nil (h : ∀ e ∈ es, e.span.start ≠ place) : insertedAt es place = [] := by
  rw [insertedAt, List.filter_eq_nil_iff.2 fun e he => by simpa using h e he]
  rfl

/-- A text with what some edits insert. -/
def insertAll (es : List Edit) (text : SqlText) : SqlText :=
  Text.weave (insertedAt es) 0 text ++ insertedAt es (Text.byteSize text)

theorem InsertsInto.fits (h : e.InsertsInto text) : e.Fits text := by
  obtain ⟨hstop, before, after, rfl, hstart⟩ := h
  refine ⟨before, [], after, rfl, hstart.symm, ?_⟩
  rw [hstop, List.append_nil, hstart]

theorem newAt_of_insertions (h : ∀ e ∈ es, e.span.stop = e.span.start) : newAt es place = insertedAt es place := by
  have hins : es.filter (insertsAt place) = es.filter fun e => e.span.start == place :=
    List.filter_congr fun e he => by simp [insertsAt, isInsertion, h e he]
  have hrep : es.filter (replacesAt place) = [] :=
    List.filter_eq_nil_iff.2 fun e he => by simp [replacesAt, isInsertion, h e he]
  rw [newAt, hins, hrep, List.append_nil, insertedAt]

/-- What is only inserted leaves every character in its place. -/
theorem remade_of_insertions (h : ∀ e ∈ es, e.span.stop = e.span.start) :
    remade es place t = Text.weave (insertedAt es) place t ++ insertedAt es (place + Text.byteSize t) := by
  induction t generalizing place with
  | nil => exact newAt_of_insertions h
  | cons c t ih =>
    have hnone : ¬ ∃ e ∈ es, e.Covers place := by
      rintro ⟨e, he, hle, hlt⟩
      have := h e he
      omega
    rw [remade, Text.weave_cons, newAt_of_insertions h, if_neg hnone, ih, Text.byteSize_cons, Nat.add_assoc]
    simp

/-- **Insertions.**  A set of insertions can be applied, and makes the text with each of them at its place. -/
theorem applyAll_insertions (h : ∀ e ∈ es, e.InsertsInto text) : applyAll es text = .ok (insertAll es text) := by
  have hstop : ∀ e ∈ es, e.span.stop = e.span.start := fun e he => (h e he).1
  have hcompat : ∀ a ∈ es, ∀ b ∈ es, Compatible a b := fun a ha b hb =>
    compatible_of_insertions (hstop a ha) (hstop b hb)
  rw [applyAll_of_compatible (fun e he => (h e he).fits) (List.pairwise_of_forall_mem_list hcompat),
    remade_of_insertions hstop, Nat.zero_add]
  rfl

end Edit

end JetAdapter
