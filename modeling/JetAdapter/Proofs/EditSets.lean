import JetAdapter.Query.Edit

/-!
# Sets of edits

A set of edits is sorted and then applied from the first to the last, where each one is only compared with the place
that the one before has reached.  Nonetheless it can be applied if and only if each two of its edits are compatible
(`Edit.Compatible`), in whatever order it is given: they replace no byte in common, and neither inserts strictly inside
of what the other one replaces (`Edit.applied_iff_compatible`).

What the set makes of the text is told place by place, without sorting (`Edit.remade`): first what is inserted there, in
the order of the set, next the new text of what is replaced from there on, and then the character that stands there,
unless it is replaced.

* `Edit.compatible_iff_le`: two edits that are sorted are compatible if and only if the first ends before the second
  starts.
* `Edit.applyFrom_of_apart`: edits that follow each other that way can be applied, and make the text that `remade`
  tells.  `Edit.disjoint_of_applyFrom`: no others can be applied.
* `Edit.filter_sorted`: sorting keeps the order of edits each of which may come first.
-/

namespace JetAdapter

namespace Edit

variable {a b e : Edit} {es es' : List Edit} {text out before rest kept dropped s t : SqlText} {offset place : Nat}

/-! ### Edits that fit a text -/

/-- Whether the stretch that an edit replaces is one of the text. -/
def Fits (text : SqlText) (e : Edit) : Prop :=
  ∃ before dropped after, text = before ++ (dropped ++ after) ∧
    e.span.start = Text.byteSize before ∧ e.span.stop = Text.byteSize (before ++ dropped)

/-- The stretch starts no later than it stops, and both are places between two characters or at an end of the text. -/
theorem fits_iff : e.Fits text ↔
    e.span.start ≤ e.span.stop ∧ (Text.cutAt e.span.start text).isSome ∧ (Text.cutAt e.span.stop text).isSome := by
  constructor
  · rintro ⟨before, dropped, after, rfl, hstart, hstop⟩
    refine ⟨?_, ?_, ?_⟩
    · rw [hstart, hstop, Text.byteSize_append]
      exact Nat.le_add_right _ _
    · rw [hstart, Text.cutAt_append]
      rfl
    · rw [hstop, ← List.append_assoc, Text.cutAt_append]
      rfl
  · rintro ⟨hle, hstart, hstop⟩
    obtain ⟨⟨before, fromStart⟩, hstart⟩ := Option.isSome_iff_exists.1 hstart
    obtain ⟨⟨before', after⟩, hstop⟩ := Option.isSome_iff_exists.1 hstop
    obtain ⟨rfl, hbefore⟩ := Text.eq_append_of_cutAt hstart
    obtain ⟨htext, hbefore'⟩ := Text.eq_append_of_cutAt hstop
    rw [← hbefore, ← hbefore'] at hle
    obtain ⟨dropped, rfl, rfl⟩ := Text.exists_append_of_byteSize_le htext hle
    exact ⟨before, dropped, after, rfl, hbefore.symm, hbefore'.symm⟩

instance (text : SqlText) (e : Edit) : Decidable (e.Fits text) :=
  decidable_of_iff _ fits_iff.symm

/-- The part of a text that an edit replaces behind the place that is reached. -/
theorem Fits.behind (h : e.Fits (before ++ rest)) (hle : Text.byteSize before ≤ e.span.start) :
    ∃ kept dropped after, rest = kept ++ (dropped ++ after) ∧
      e.span.start = Text.byteSize (before ++ kept) ∧
      e.span.stop = Text.byteSize (before ++ (kept ++ dropped)) := by
  obtain ⟨before', dropped, after, htext, hstart, hstop⟩ := h
  rw [hstart] at hle
  obtain ⟨kept, rfl, rfl⟩ := Text.exists_append_of_byteSize_le htext hle
  refine ⟨kept, dropped, after, rfl, hstart, ?_⟩
  rw [hstop, List.append_assoc]

/-! ### Applying edits one by one -/

/-- One step of the application of edits. -/
theorem applyFrom_cons (hstart : e.span.start = offset + Text.byteSize kept)
    (hstop : e.span.stop = e.span.start + Text.byteSize dropped) :
    applyFrom offset (kept ++ (dropped ++ rest)) (e :: es)
      = (applyFrom e.span.stop rest es).map (kept ++ e.text ++ ·) := by
  have hkept : e.span.start - offset = Text.byteSize kept := by omega
  have hdropped : e.span.stop - e.span.start = Text.byteSize dropped := by omega
  rw [applyFrom, if_neg (by omega), if_neg (by omega), hkept, Text.cutAt_append]
  simp only
  rw [hdropped, Text.cutAt_append]

/-- One edit that fits is applied, or it overlaps with what was applied before. -/
theorem applyFrom_cons_of_fits (h : e.Fits (before ++ rest)) :
    (e.span.start < Text.byteSize before ∧ applyFrom (Text.byteSize before) rest (e :: es)
        = .error (.syntaxError .overlappingEdits e.span)) ∨
      ∃ kept dropped after, rest = kept ++ (dropped ++ after) ∧
        e.span.start = Text.byteSize (before ++ kept) ∧ e.span.stop = Text.byteSize (before ++ (kept ++ dropped)) ∧
        applyFrom (Text.byteSize before) rest (e :: es)
          = (applyFrom (Text.byteSize (before ++ (kept ++ dropped))) after es).map (kept ++ e.text ++ ·) := by
  by_cases hlt : e.span.start < Text.byteSize before
  · exact .inl ⟨hlt, by rw [applyFrom, if_pos hlt]⟩
  · obtain ⟨kept, dropped, after, rfl, hstart, hstop⟩ := h.behind (by omega)
    refine .inr ⟨kept, dropped, after, rfl, hstart, hstop, ?_⟩
    rw [applyFrom_cons, hstop]
    · rw [hstart, Text.byteSize_append]
    · rw [hstart, hstop, ← List.append_assoc, Text.byteSize_append (before ++ kept)]

/-- Edits that fit are all applied, or one of them overlaps with what was applied before. -/
theorem applyFrom_ok_or_overlapping (h : ∀ e ∈ es, e.Fits (before ++ rest)) :
    (∃ out, applyFrom (Text.byteSize before) rest es = .ok out) ∨
      ∃ e ∈ es, applyFrom (Text.byteSize before) rest es = .error (.syntaxError .overlappingEdits e.span) := by
  induction es generalizing before rest with
  | nil => exact .inl ⟨rest, rfl⟩
  | cons e es ih =>
    obtain ⟨he, hes⟩ := List.forall_mem_cons.1 h
    rcases applyFrom_cons_of_fits he with ⟨-, heq⟩ | ⟨kept, dropped, after, rfl, -, -, heq⟩
    · exact .inr ⟨e, List.mem_cons_self, heq⟩
    · have hes' : ∀ f ∈ es, f.Fits ((before ++ (kept ++ dropped)) ++ after) := fun f hf => by
        rw [List.append_assoc, List.append_assoc]
        exact hes f hf
      rcases ih hes' with ⟨out, hout⟩ | ⟨f, hf, herror⟩
      · exact .inl ⟨kept ++ e.text ++ out, by rw [heq, hout]; rfl⟩
      · exact .inr ⟨f, List.mem_cons_of_mem _ hf, by rw [heq, herror]; rfl⟩

theorem applyAll_ok_or_overlapping (h : ∀ e ∈ es, e.Fits text) :
    (∃ out, applyAll es text = .ok out) ∨
      ∃ e ∈ es, applyAll es text = .error (.syntaxError .overlappingEdits e.span) := by
  have hmem : ∀ e, e ∈ sorted es ↔ e ∈ es := fun e => (sorted_perm es).mem_iff
  have hsorted : ∀ e ∈ sorted es, e.Fits ([] ++ text) := fun e he => h e ((hmem e).1 he)
  rcases applyFrom_ok_or_overlapping hsorted with hok | ⟨e, he, herror⟩
  · exact .inl hok
  · exact .inr ⟨e, (hmem e).1 he, herror⟩

/-- Edits that are applied from a place on start behind it, and none starts before another one ends. -/
theorem disjoint_of_applyFrom (h : applyFrom offset text es = .ok out) :
    (∀ e ∈ es, offset ≤ e.span.start) ∧ es.Pairwise fun a b => a.span.stop ≤ b.span.start := by
  induction es generalizing offset text out with
  | nil => exact ⟨List.forall_mem_nil _, .nil⟩
  | cons e es ih =>
    rw [applyFrom] at h
    split at h
    · cases h
    next hstart =>
    split at h
    · cases h
    next hstop =>
    split at h
    · cases h
    split at h
    · cases h
    next rest _ =>
    cases hrest : applyFrom e.span.stop rest es with
    | error err =>
      rw [hrest] at h
      cases h
    | ok out' =>
      obtain ⟨hbehind, hpairs⟩ := ih hrest
      refine ⟨List.forall_mem_cons.2 ⟨by omega, fun e' he' => ?_⟩, .cons hbehind hpairs⟩
      have := hbehind e' he'
      omega

/-! ### Compatible edits -/

/-- Whether an edit replaces the byte at a place; an insertion replaces none. -/
def Covers (e : Edit) (place : Nat) : Prop :=
  e.span.start ≤ place ∧ place < e.span.stop

instance (e : Edit) (place : Nat) : Decidable (e.Covers place) :=
  inferInstanceAs (Decidable (_ ∧ _))

/-- Whether an edit inserts strictly inside of what another one replaces. -/
def InsertsInside (a b : Edit) : Prop :=
  a.isInsertion ∧ b.span.start < a.span.start ∧ a.span.start < b.span.stop

instance (a b : Edit) : Decidable (a.InsertsInside b) :=
  inferInstanceAs (Decidable (_ ∧ _))

/-- Whether two edits replace no byte in common, and neither inserts strictly inside of what the other one replaces. -/
structure Compatible (a b : Edit) : Prop where
  disjoint : ∀ place, ¬ (a.Covers place ∧ b.Covers place)
  left : ¬ a.InsertsInside b
  right : ¬ b.InsertsInside a

theorem Compatible.symm (h : Compatible a b) : Compatible b a :=
  ⟨fun place hcovers => h.disjoint place hcovers.symm, h.right, h.left⟩

theorem disjoint_iff : (∀ place, ¬ (a.Covers place ∧ b.Covers place)) ↔
    min a.span.stop b.span.stop ≤ max a.span.start b.span.start := by
  constructor
  · intro h
    have := h (max a.span.start b.span.start)
    unfold Covers at this
    omega
  · intro h place hcovers
    unfold Covers at hcovers
    omega

theorem compatible_iff : Compatible a b ↔ min a.span.stop b.span.stop ≤ max a.span.start b.span.start ∧
    ¬ a.InsertsInside b ∧ ¬ b.InsertsInside a :=
  ⟨fun h => ⟨disjoint_iff.1 h.disjoint, h.left, h.right⟩, fun ⟨h, hab, hba⟩ => ⟨disjoint_iff.2 h, hab, hba⟩⟩

instance (a b : Edit) : Decidable (Compatible a b) :=
  decidable_of_iff _ compatible_iff.symm

theorem compatible_of_insertions (ha : a.span.stop = a.span.start) (hb : b.span.stop = b.span.start) :
    Compatible a b := by
  refine compatible_iff.2 ⟨by omega, fun hinside => ?_, fun hinside => ?_⟩
  · have := hinside.2
    omega
  · have := hinside.2
    omega

/-- Of two sorted edits the first one ends before the second one starts, unless they are not compatible. -/
theorem compatible_iff_le (ha : a.span.start ≤ a.span.stop) (hb : b.span.start ≤ b.span.stop) (h : comesFirst a b) :
    Compatible a b ↔ a.span.stop ≤ b.span.start := by
  rw [comesFirst_iff] at h
  have hins : ∀ e : Edit, e.isInsertion = true ↔ e.span.start = e.span.stop := fun e => beq_iff_eq
  have hrep : b.isInsertion = false ↔ b.span.start ≠ b.span.stop := beq_eq_false_iff_ne
  rw [compatible_iff, InsertsInside, InsertsInside, hins, hins]
  rw [hins, hrep] at h
  omega

/-- The edits of a set are compatible if and only if they follow each other when they are sorted. -/
theorem pairwise_sorted_iff (h : ∀ e ∈ es, e.span.start ≤ e.span.stop) :
    ((sorted es).Pairwise fun a b => a.span.stop ≤ b.span.start) ↔ es.Pairwise Compatible := by
  have hle : ∀ e ∈ sorted es, e.span.start ≤ e.span.stop := fun e he => h e ((sorted_perm es).mem_iff.1 he)
  rw [← (sorted_perm es).pairwise_iff Compatible.symm]
  constructor
  · intro hapart
    refine (hapart.and (pairwise_sorted es)).imp_of_mem fun ha hb hab => ?_
    exact (compatible_iff_le (hle _ ha) (hle _ hb) hab.2).2 hab.1
  · intro hcompat
    refine (hcompat.and (pairwise_sorted es)).imp_of_mem fun ha hb hab => ?_
    exact (compatible_iff_le (hle _ ha) (hle _ hb) hab.2).1 hab.1

/-! ### Texts that are remade -/

/-- Whether an edit inserts at a place. -/
def insertsAt (place : Nat) (e : Edit) : Bool :=
  e.isInsertion && e.span.start == place

/-- Whether an edit replaces what stands from a place on. -/
def replacesAt (place : Nat) (e : Edit) : Bool :=
  !e.isInsertion && e.span.start == place

/-- The new text at a place: what is inserted there, in the order of the set, and then what replaces the stretch that
starts there. -/
def newAt (es : List Edit) (place : Nat) : SqlText :=
  (es.filter (insertsAt place) ++ es.filter (replacesAt place)).flatMap Edit.text

/-- What a set of edits makes of a stretch of a text, up to the end of the text; the stretch starts at a place. -/
def remade (es : List Edit) (place : Nat) : SqlText → SqlText
  | [] => newAt es place
  | c :: t => newAt es place ++ ((if ∃ e ∈ es, e.Covers place then [] else [c]) ++ remade es (place + c.utf8Size) t)

theorem newAt_eq_nil (h : ∀ e ∈ es, e.span.start ≠ place) : newAt es place = [] := by
  have hins : es.filter (insertsAt place) = [] :=
    List.filter_eq_nil_iff.2 fun e he => by simp [insertsAt, h e he]
  have hrep : es.filter (replacesAt place) = [] :=
    List.filter_eq_nil_iff.2 fun e he => by simp [replacesAt, h e he]
  rw [newAt, hins, hrep]
  rfl

theorem newAt_cons_of_ne (h : e.span.start ≠ place) : newAt (e :: es) place = newAt es place := by
  have hins : ¬ insertsAt place e := by simp [insertsAt, h]
  have hrep : ¬ replacesAt place e := by simp [replacesAt, h]
  rw [newAt, List.filter_cons_of_neg hins, List.filter_cons_of_neg hrep]
  rfl

/-- At the place where the first edit starts its text comes first, if the others start where it ends or behind. -/
theorem newAt_cons_self (h : ∀ f ∈ es, e.span.stop ≤ f.span.start) (hle : e.span.start ≤ e.span.stop) :
    newAt (e :: es) e.span.start = e.text ++ newAt es e.span.start := by
  cases he : e.isInsertion with
  | true =>
    have hins : insertsAt e.span.start e := by simp [insertsAt, he]
    have hrep : ¬ replacesAt e.span.start e := by simp [replacesAt, he]
    rw [newAt, List.filter_cons_of_pos hins, List.filter_cons_of_neg hrep]
    rfl
  | false =>
    -- A replacement stops behind its start, so no other edit starts where it does.
    have hne : e.span.start ≠ e.span.stop := beq_eq_false_iff_ne.1 he
    have hnone : ∀ f ∈ es, f.span.start ≠ e.span.start := fun f hf => by
      have := h f hf
      omega
    have hins : (e :: es).filter (insertsAt e.span.start) = [] := by
      refine List.filter_eq_nil_iff.2 (List.forall_mem_cons.2 ⟨by simp [insertsAt, he], fun f hf => ?_⟩)
      simp [insertsAt, hnone f hf]
    have hrep : replacesAt e.span.start e := by simp [replacesAt, he]
    have hrest : es.filter (replacesAt e.span.start) = [] :=
      List.filter_eq_nil_iff.2 fun f hf => by simp [replacesAt, hnone f hf]
    rw [newAt_eq_nil hnone, newAt, hins, List.filter_cons_of_pos hrep, hrest]
    simp

/-- Only what starts or is covered from a place on matters. -/
theorem remade_congr (hnew : ∀ p, place ≤ p → newAt es p = newAt es' p)
    (hcovers : ∀ p, place ≤ p → ((∃ e ∈ es, e.Covers p) ↔ ∃ e ∈ es', e.Covers p)) :
    remade es place t = remade es' place t := by
  induction t generalizing place with
  | nil => exact hnew place (Nat.le_refl _)
  | cons c t ih =>
    have hbehind : ∀ p, place + c.utf8Size ≤ p → place ≤ p := fun p hp => Nat.le_trans (Nat.le_add_right _ _) hp
    have hrest := ih (fun p hp => hnew p (hbehind p hp)) fun p hp => hcovers p (hbehind p hp)
    rw [remade, remade, hnew place (Nat.le_refl _), hrest]
    simp only [hcovers place (Nat.le_refl _)]

/-- What stands before all edits is kept. -/
theorem remade_kept (h : ∀ e ∈ es, place + Text.byteSize s ≤ e.span.start) :
    remade es place (s ++ t) = s ++ remade es (place + Text.byteSize s) t := by
  induction s generalizing place with
  | nil => rfl
  | cons c s ih =>
    have hpos := c.utf8Size_pos
    rw [Text.byteSize_cons] at h
    have hnew : newAt es place = [] := newAt_eq_nil fun e he => by
      have := h e he
      omega
    have hcovers : ¬ ∃ e ∈ es, e.Covers place := by
      rintro ⟨e, he, hle, -⟩
      have := h e he
      omega
    have hrest : remade es (place + c.utf8Size) (s ++ t) = _ := ih fun e he => by
      have := h e he
      omega
    rw [List.cons_append, remade, hnew, if_neg hcovers, hrest, Text.byteSize_cons, Nat.add_assoc]
    rfl

/-- What an edit replaces is dropped, if no edit starts there. -/
theorem remade_dropped (hnone : ∀ f ∈ es, f.span.start < place ∨ place + Text.byteSize s ≤ f.span.start)
    (he : e ∈ es) (hstart : e.span.start ≤ place) (hstop : place + Text.byteSize s ≤ e.span.stop) :
    remade es place (s ++ t) = remade es (place + Text.byteSize s) t := by
  induction s generalizing place with
  | nil => rfl
  | cons c s ih =>
    have hpos := c.utf8Size_pos
    rw [Text.byteSize_cons] at hnone hstop
    have hnew : newAt es place = [] := newAt_eq_nil fun f hf => by
      have := hnone f hf
      omega
    have hcovers : ∃ e ∈ es, e.Covers place := ⟨e, he, hstart, by omega⟩
    have hnone' : ∀ f ∈ es,
        f.span.start < place + c.utf8Size ∨ place + c.utf8Size + Text.byteSize s ≤ f.span.start := by
      intro f hf
      have := hnone f hf
      omega
    have hrest := ih hnone' (by omega) (by omega)
    rw [List.cons_append, remade, hnew, if_pos hcovers, hrest, Text.byteSize_cons, Nat.add_assoc]
    rfl

/-- An edit that has ended changes nothing behind it. -/
theorem remade_cons_behind (hstart : e.span.start < place) (hstop : e.span.stop ≤ place) :
    remade (e :: es) place t = remade es place t := by
  refine remade_congr (fun p hp => newAt_cons_of_ne (by omega)) fun p hp => ?_
  have he : ¬ e.Covers p := fun hcovers => Nat.lt_irrefl _ (Nat.lt_of_lt_of_le hcovers.2 (Nat.le_trans hstop hp))
  simp [he]

/-- The first edit puts its text in the place of what it replaces. -/
theorem remade_cons (hstop : e.span.stop = e.span.start + Text.byteSize dropped)
    (h : ∀ f ∈ es, e.span.stop ≤ f.span.start) :
    remade (e :: es) e.span.start (dropped ++ rest) = e.text ++ remade es e.span.stop rest := by
  have hnew := newAt_cons_self h (by omega)
  cases dropped with
  | nil =>
    have heq : e.span.stop = e.span.start := hstop
    rw [List.nil_append, heq]
    cases rest with
    | nil => exact hnew
    | cons c rest =>
      have hpos := c.utf8Size_pos
      have he : ¬ e.Covers e.span.start := fun hcovers => Nat.lt_irrefl _ (heq ▸ hcovers.2)
      have hrest : remade (e :: es) (e.span.start + c.utf8Size) rest = _ := remade_cons_behind (by omega) (by omega)
      rw [remade, remade, hnew, hrest, List.append_assoc]
      simp [he]
  | cons c dropped =>
    have hpos := c.utf8Size_pos
    rw [Text.byteSize_cons] at hstop
    have hnone : newAt es e.span.start = [] := newAt_eq_nil fun f hf => by
      have := h f hf
      omega
    have hcovers : ∃ f ∈ e :: es, f.Covers e.span.start := ⟨e, List.mem_cons_self, Nat.le_refl _, by omega⟩
    have hdropped : remade (e :: es) (e.span.start + c.utf8Size) (dropped ++ rest) = _ :=
      remade_dropped (List.forall_mem_cons.2 ⟨.inl (by omega), fun f hf => .inr (by have := h f hf; omega)⟩)
        List.mem_cons_self (by omega) (by omega)
    have hrest : remade (e :: es) (e.span.start + c.utf8Size + Text.byteSize dropped) rest = _ :=
      remade_cons_behind (by omega) (by omega)
    rw [List.cons_append, remade, hnew, hnone, if_pos hcovers, hdropped, hrest, Nat.add_assoc, ← hstop,
      List.append_nil, List.nil_append]

/-- **Edits that follow each other.**  They can be applied, and what they make of the text is told place by place. -/
theorem applyFrom_of_apart (hfits : ∀ e ∈ es, e.Fits (before ++ rest))
    (hbehind : ∀ e ∈ es, Text.byteSize before ≤ e.span.start)
    (hapart : es.Pairwise fun a b => a.span.stop ≤ b.span.start) :
    applyFrom (Text.byteSize before) rest es = .ok (remade es (Text.byteSize before) rest) := by
  -- `before ++ rest` is the whole text all the time: what an edit keeps and drops moves from `rest` to `before`.
  induction es generalizing before rest with
  | nil =>
    have hnone : remade [] (Text.byteSize before) (rest ++ []) = _ := remade_kept (List.forall_mem_nil _)
    rw [List.append_nil] at hnone
    rw [hnone, remade, newAt_eq_nil (List.forall_mem_nil _), List.append_nil]
    rfl
  | cons e es ih =>
    obtain ⟨he, hes⟩ := List.forall_mem_cons.1 hfits
    obtain ⟨hle, hapart⟩ := List.pairwise_cons.1 hapart
    rcases applyFrom_cons_of_fits he with ⟨hlt, -⟩ | ⟨kept, dropped, after, rfl, hstart, hstop, heq⟩
    · have := hbehind e List.mem_cons_self
      omega
    · have hes' : ∀ f ∈ es, f.Fits ((before ++ (kept ++ dropped)) ++ after) := fun f hf => by
        rw [List.append_assoc, List.append_assoc]
        exact hes f hf
      have hrest := ih hes' (fun f hf => hstop ▸ hle f hf) hapart
      rw [Text.byteSize_append] at hstart
      have hkept : ∀ f ∈ e :: es, Text.byteSize before + Text.byteSize kept ≤ f.span.start := by
        refine List.forall_mem_cons.2 ⟨Nat.le_of_eq hstart.symm, fun f hf => ?_⟩
        have := hle f hf
        rw [hstop, Text.byteSize_append, Text.byteSize_append] at this
        omega
      have hdropped : e.span.stop = e.span.start + Text.byteSize dropped := by
        rw [hstop, hstart, Text.byteSize_append, Text.byteSize_append, Nat.add_assoc]
      rw [heq, hrest, ← hstop, remade_kept hkept, ← hstart, remade_cons hdropped hle, ← List.append_assoc]
      rfl

/-! ### Sorting -/

/-- Sorting keeps the order of edits each of which may come first. -/
theorem filter_insertSorted {q : Edit → Bool} (hq : ∀ a b, q a → q b → comesFirst a b) (e : Edit) (es : List Edit) :
    (insertSorted e es).filter q = (e :: es).filter q := by
  induction es with
  | nil => rfl
  | cons x xs ih =>
    rw [insertSorted]
    split
    · rfl
    next hx =>
    rw [List.filter_cons, ih]
    by_cases he : q e
    · have hqx : ¬ q x := fun hqx => hx (hq e x he hqx)
      rw [if_neg hqx, List.filter_cons_of_pos he, List.filter_cons_of_pos he, List.filter_cons_of_neg hqx]
    · rw [List.filter_cons_of_neg he, List.filter_cons_of_neg he, List.filter_cons]

theorem filter_sorted {q : Edit → Bool} (hq : ∀ a b, q a → q b → comesFirst a b) (es : List Edit) :
    (sorted es).filter q = es.filter q := by
  induction es with
  | nil => rfl
  | cons e es ih =>
    have hsorted : sorted (e :: es) = insertSorted e (sorted es) := rfl
    rw [hsorted, filter_insertSorted hq, List.filter_cons, List.filter_cons, ih]

theorem newAt_sorted (es : List Edit) (place : Nat) : newAt (sorted es) place = newAt es place := by
  have hins : ∀ a b, insertsAt place a → insertsAt place b → comesFirst a b := by
    intro a b ha hb
    simp only [insertsAt, Bool.and_eq_true, beq_iff_eq] at ha hb
    exact comesFirst_iff.2 (.inr ⟨ha.2.trans hb.2.symm, .inl ha.1⟩)
  have hrep : ∀ a b, replacesAt place a → replacesAt place b → comesFirst a b := by
    intro a b ha hb
    simp only [replacesAt, Bool.and_eq_true, Bool.not_eq_true', beq_iff_eq] at ha hb
    exact comesFirst_iff.2 (.inr ⟨ha.2.trans hb.2.symm, .inr hb.1⟩)
  rw [newAt, newAt, filter_sorted hins, filter_sorted hrep]

theorem exists_covers_of_perm (h : es'.Perm es) : (∃ e ∈ es', e.Covers place) ↔ ∃ e ∈ es, e.Covers place := by
  simp only [h.mem_iff]

theorem remade_sorted (es : List Edit) (place : Nat) (t : SqlText) : remade (sorted es) place t = remade es place t :=
  remade_congr (fun p _ => newAt_sorted es p) fun _ _ => exists_covers_of_perm (sorted_perm es)

/-- **Compatible edits.**  Edits that fit a text can be applied together if each two of them are compatible. -/
theorem applyAll_of_compatible (hfits : ∀ e ∈ es, e.Fits text) (h : es.Pairwise Compatible) :
    applyAll es text = .ok (remade es 0 text) := by
  have hsorted : ∀ e ∈ sorted es, e.Fits ([] ++ text) := fun e he => hfits e ((sorted_perm es).mem_iff.1 he)
  have hapart := (pairwise_sorted_iff fun e he => (fits_iff.1 (hfits e he)).1).2 h
  rw [← remade_sorted]
  exact applyFrom_of_apart hsorted (fun _ _ => Nat.zero_le _) hapart

example : (applyAll [⟨⟨0, 5⟩, "ucase".toList⟩, insert 0 "x ".toList] "upper(a)".toList).toOption
    = some "x ucase(a)".toList := by decide +kernel

theorem compatible_of_applyAll (hfits : ∀ e ∈ es, e.Fits text) (h : applyAll es text = .ok out) :
    es.Pairwise Compatible :=
  (pairwise_sorted_iff fun e he => (fits_iff.1 (hfits e he)).1).1 (disjoint_of_applyFrom h).2

/-! ### The order of a set -/

/-- Whether edits are the same ones in another order, where those that insert at one place keep theirs. -/
structure Reordered (es es' : List Edit) : Prop where
  perm : es'.Perm es
  insertions : ∀ place, es'.filter (insertsAt place) = es.filter (insertsAt place)

/-- Two neighbours may change places unless both insert at one place. -/
theorem Reordered.swap (es fs : List Edit) (h : ∀ place, ¬ (insertsAt place a ∧ insertsAt place b)) :
    Reordered (es ++ a :: b :: fs) (es ++ b :: a :: fs) := by
  refine ⟨(List.Perm.swap a b fs).append_left es, fun place => ?_⟩
  rw [List.filter_append, List.filter_append]
  by_cases ha : insertsAt place a
  · have hb : ¬ insertsAt place b := fun hb => h place ⟨ha, hb⟩
    simp [ha, hb]
  · simp [List.filter_cons, ha]

/-- Of compatible edits at most one replaces what stands from a place on. -/
theorem filter_replacesAt_of_perm (hfits : ∀ e ∈ es, e.Fits text) (h : es.Pairwise Compatible) (hperm : es'.Perm es) :
    es'.filter (replacesAt place) = es.filter (replacesAt place) := by
  have hperm := hperm.filter (replacesAt place)
  have hpairs := h.filter (replacesAt place)
  have hcovers : ∀ e ∈ es.filter (replacesAt place), e.Covers place := by
    intro e he
    obtain ⟨he, hrep⟩ := List.mem_filter.1 he
    simp only [replacesAt, Bool.and_eq_true, Bool.not_eq_true', beq_iff_eq] at hrep
    have hne : e.span.start ≠ e.span.stop := beq_eq_false_iff_ne.1 hrep.1
    have hle := (fits_iff.1 (hfits e he)).1
    exact ⟨Nat.le_of_eq hrep.2, by omega⟩
  rcases hfilter : es.filter (replacesAt place) with _ | ⟨e, _ | ⟨f, fs⟩⟩
  · rw [hfilter] at hperm
    exact hperm.eq_nil
  · rw [hfilter] at hperm
    exact List.perm_singleton.1 hperm
  · rw [hfilter] at hpairs hcovers
    have hef := (List.pairwise_cons.1 hpairs).1 f List.mem_cons_self
    exact absurd ⟨hcovers e (by simp), hcovers f (by simp)⟩ (hef.disjoint place)

theorem Reordered.applyAll_eq (h : Reordered es es') (hfits : ∀ e ∈ es, e.Fits text) (hes : es.Pairwise Compatible) :
    applyAll es' text = applyAll es text := by
  have hfits' : ∀ e ∈ es', e.Fits text := fun e he => hfits e (h.perm.mem_iff.1 he)
  have hes' : es'.Pairwise Compatible := (h.perm.pairwise_iff Compatible.symm).2 hes
  have hnew : ∀ p, newAt es' p = newAt es p := fun p => by
    rw [newAt, newAt, h.insertions p, filter_replacesAt_of_perm hfits hes h.perm]
  rw [applyAll_of_compatible hfits hes, applyAll_of_compatible hfits' hes',
    remade_congr (fun p _ => hnew p) fun _ _ => exists_covers_of_perm h.perm]

/-- **Sets of edits.**  Edits that fit a text can be applied together if and only if each two of them are compatible.
They make the text that is told place by place, and others are refused because two of them overlap.  In what order a
set is given makes no difference, that of the insertions at one place apart. -/
theorem applied_iff_compatible (es : List Edit) (text : SqlText) (h : ∀ e ∈ es, e.Fits text) :
    ((∃ out, applyAll es text = .ok out) ↔ es.Pairwise Compatible) ∧
    (es.Pairwise Compatible → applyAll es text = .ok (remade es 0 text)) ∧
    (¬ es.Pairwise Compatible → ∃ e ∈ es, applyAll es text = .error (.syntaxError .overlappingEdits e.span)) ∧
    ∀ es', Reordered es es' → (applyAll es' text).toOption = (applyAll es text).toOption := by
  have hrefused : ∀ fs : List Edit, (∀ e ∈ fs, e.Fits text) → ¬ fs.Pairwise Compatible →
      ∃ e ∈ fs, applyAll fs text = .error (.syntaxError .overlappingEdits e.span) := fun fs hfits hfs =>
    (applyAll_ok_or_overlapping hfits).resolve_left fun ⟨_, hout⟩ => hfs (compatible_of_applyAll hfits hout)
  refine ⟨⟨fun ⟨_, hout⟩ => compatible_of_applyAll h hout, fun hes => ⟨_, applyAll_of_compatible h hes⟩⟩,
    applyAll_of_compatible h, hrefused es h, fun es' hes' => ?_⟩
  by_cases hes : es.Pairwise Compatible
  · rw [hes'.applyAll_eq h hes]
  · -- The two refusals may name different edits, of which only the success is compared.
    have hnot : ¬ es'.Pairwise Compatible := fun hpairs => hes ((hes'.perm.pairwise_iff Compatible.symm).1 hpairs)
    obtain ⟨e, -, herror⟩ := hrefused es h hes
    obtain ⟨e', -, herror'⟩ := hrefused es' (fun e he => h e (hes'.perm.mem_iff.1 he)) hnot
    rw [herror, herror']
    rfl

/-- Around a replacement insertions are made on both sides; inside of it none can be made. -/
theorem applied_iff_compatible_around_letter : ∃ es es' fs : List Edit,
    (∀ e ∈ es, e.Fits "añb c".toList) ∧ es.Pairwise Compatible ∧ Reordered es es' ∧ es' ≠ es ∧
    applyAll es "añb c".toList = .ok "a<(nn!b c)".toList ∧
    (applyAll es' "añb c".toList).toOption = some "a<(nn!b c)".toList ∧
    (∀ e ∈ fs, e.Fits "añb c".toList) ∧ ¬ fs.Pairwise Compatible ∧
    ∃ e ∈ fs, applyAll fs "añb c".toList = .error (.syntaxError .overlappingEdits e.span) := by
  obtain ⟨es, es', hfits, hpairs, hreordered, hne, hremade⟩ : ∃ es es' : List Edit,
      (∀ e ∈ es, e.Fits "añb c".toList) ∧ es.Pairwise Compatible ∧ Reordered es es' ∧ es' ≠ es ∧
        remade es 0 "añb c".toList = "a<(nn!b c)".toList :=
    ⟨[insert 6 [')']] ++ ⟨⟨1, 3⟩, ['n', 'n']⟩ :: insert 1 ['<'] :: [insert 1 ['('], insert 3 ['!']], _,
      by decide +kernel, by decide +kernel, .swap _ _ fun _ hboth => absurd hboth.1 (by simp [insertsAt, isInsertion]),
      by decide +kernel, by decide +kernel⟩
  obtain ⟨fs, hfits', hnot⟩ : ∃ fs : List Edit, (∀ e ∈ fs, e.Fits "añb c".toList) ∧ ¬ fs.Pairwise Compatible :=
    ⟨[⟨⟨0, 3⟩, ['n']⟩, insert 1 ['(']], by decide +kernel, by decide +kernel⟩
  obtain ⟨-, happlied, -, hsame⟩ := applied_iff_compatible es _ hfits
  have happ := happlied hpairs
  rw [hremade] at happ
  refine ⟨es, es', fs, hfits, hpairs, hreordered, hne, happ, ?_, hfits', hnot,
    (applied_iff_compatible fs _ hfits').2.2.1 hnot⟩
  rw [hsame es' hreordered, happ]
  rfl

end Edit

end JetAdapter
