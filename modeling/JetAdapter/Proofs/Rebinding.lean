import JetAdapter.Proofs.Pieces

/-!
# Binding templates to other parameters

A template is bound by looking up the ordinals of its slots, and that succeeds if and only if there are as many slots
as tracked parameters and each ordinal is tracked (`Template.exists_bind_iff`).  The bound statement is built by
pushing the pieces of the template one by one, each slot as the parameter that is found for it
(`Template.bind_eq_ok_iff_build?`).

If the slots have distinct ordinals, there is one tracked parameter for each of them, since there are no others left
(`Tracker.forall₂_isOnly`).  `rebound_by_ordinals` says this of the template of a statement whose parameters have
distinct ordinals: any other statement is bound to the same texts, and the statement itself to itself.
-/

namespace JetAdapter

open Marked

namespace Tracker

variable {t : Tracker} {s : Statement} {ordinals : List Nat} {ps : List Parameter}

/-- Whether a parameter is the one tracked parameter with the ordinal of another parameter. -/
def IsOnly (t : Tracker) (p q : Parameter) : Prop :=
  q ∈ t.parameters ∧ q.ordinal = p.ordinal ∧ ∀ r ∈ t.parameters, r.ordinal = p.ordinal → r = q

theorem IsFirst.mem {n : Nat} {p : Parameter} (h : t.IsFirst n p) : p ∈ t.parameters := by
  obtain ⟨-, before, after, hsplit, -⟩ := h
  rw [hsplit]
  exact List.mem_append_right before List.mem_cons_self

/-- Where as many parameters of distinct ordinals are found as are tracked, the tracked ordinals are distinct. -/
theorem nodup_ordinals (hd : ordinals.Nodup) (hl : ordinals.length = t.size)
    (h : List.Forall₂ t.IsFirst ordinals ps) : (t.parameters.map Parameter.ordinal).Nodup := by
  have hfound := mapM_get?_eq_some_iff.2 h
  have hperm := (perm_of_mapM_get? hd hl hfound).map Parameter.ordinal
  rw [← hperm.nodup_iff, (eq_of_mapM_get? hfound).1]
  exact hd.map fun _ _ => Option.some.inj

/-- What is found by distinct ordinals is the only tracked parameter of each. -/
theorem forall₂_isOnly (ho : (Statement.parameters s).map Parameter.ordinal = ordinals.map some)
    (hd : ordinals.Nodup) (hl : ordinals.length = t.size) (h : List.Forall₂ t.IsFirst ordinals ps) :
    List.Forall₂ t.IsOnly (Statement.parameters s) ps := by
  have hnodup := nodup_ordinals hd hl h
  have honly : ∀ {p q : Parameter}, (∃ n, p.ordinal = some n ∧ t.IsFirst n q) → t.IsOnly p q := by
    rintro p q ⟨n, hp, hq⟩
    refine ⟨hq.mem, hq.1.trans hp.symm, ?_⟩
    intro r hr hrp
    have hsame : r.ordinal = q.ordinal := hrp.trans (hp.trans hq.1.symm)
    exact List.inj_on_of_nodup_map hnodup hr hq.mem hsame
  have hsome : List.Forall₂ (fun o q => ∃ n, o = some n ∧ t.IsFirst n q) (ordinals.map some) ps := by
    rw [List.forall₂_map_left_iff]
    exact h.imp fun n q hq => ⟨n, rfl, hq⟩
  rw [← ho, List.forall₂_map_left_iff] at hsome
  exact hsome.imp fun p q hq => honly hq

end Tracker

/-! ### Binding -/

namespace Template

variable {t : Template} {tracker : Tracker} {s out : Statement}

theorem bind_eq_ok_iff : t.bind tracker = .ok out ↔ t.marks.length = tracker.size ∧
    ∃ ps, List.Forall₂ tracker.IsFirst t.marks ps ∧ out = t.withMarks ps := by
  simp only [← Tracker.mapM_get?_eq_some_iff]
  constructor
  · exact eq_of_bind
  · rintro ⟨hl, ps, hps, rfl⟩
    simp only [bind, if_pos hl, hps]

theorem exists_bind_iff : (∃ out, t.bind tracker = .ok out) ↔
    t.marks.length = tracker.size ∧ ∀ n ∈ t.marks, tracker.Tracks n := by
  rw [← Tracker.exists_forall₂_isFirst_iff]
  constructor
  · rintro ⟨out, h⟩
    obtain ⟨hl, ps, hps, -⟩ := bind_eq_ok_iff.1 h
    exact ⟨hl, ps, hps⟩
  · rintro ⟨hl, ps, hps⟩
    exact ⟨t.withMarks ps, bind_eq_ok_iff.2 ⟨hl, ps, hps, rfl⟩⟩

/-- There is one way to fail. -/
theorem eq_of_bind_eq_error {e : SqlError} (h : t.bind tracker = .error e) :
    e = .parameterLoss tracker.size t.marks.length := by
  unfold bind at h
  simp only at h
  split at h
  · split at h
    · cases h
    · exact (Except.error.inj h).symm
  · exact (Except.error.inj h).symm

/-- The bound statement is built from the pieces of the template, a slot as the parameter that is found for it. -/
theorem bind_eq_ok_iff_build? : t.bind tracker = .ok out ↔
    t.marks.length = tracker.size ∧ build? tracker.get? t.segments = some out.segments := by
  rw [bind_eq_ok_iff, build?_segments]
  simp only [← Tracker.mapM_get?_eq_some_iff, Option.map_eq_some_iff, segments_injective.eq_iff, eq_comm (a := out)]

end Template

/-- **Templates bind exactly.**  The template of a statement whose parameters have distinct ordinals can be bound to
the tracked parameters of another statement if and only if there are as many of them and each ordinal is tracked.
What comes out has the same pieces, but each parameter is the tracked one of its ordinal; it is what pushing the pieces
one by one gives.  The template binds the parameters of its own statement to that statement. -/
theorem rebound_by_ordinals (s s' : Statement) (ho : ∀ p ∈ s.parameters, p.ordinal ≠ none)
    (hd : (s.parameters.map Parameter.ordinal).Nodup) :
    ((∃ out, (Template.ofStatement s).bind (Tracker.linearize s').1 = .ok out) ↔
      s.parameters.length = s'.parameters.length ∧
        ∀ p ∈ s.parameters, ∃ q ∈ (Tracker.linearize s').1.parameters, q.ordinal = p.ordinal) ∧
    (∀ e, (Template.ofStatement s).bind (Tracker.linearize s').1 = .error e →
      e = .parameterLoss s'.parameters.length s.parameters.length) ∧
    (∀ out, (Template.ofStatement s).bind (Tracker.linearize s').1 = .ok out →
      List.Forall₂ (Segment.Like (Tracker.linearize s').1.IsOnly) s.segments out.segments ∧
      build? (Tracker.linearize s').1.get? (Template.ofStatement s).segments = some out.segments) ∧
    (Template.ofStatement s).bind (Tracker.linearize s).1 = .ok s := by
  have hself := Tracker.parameters_linearize_eq_self ho
  have hordinals : s.parameters.map Parameter.ordinal = s.effectiveOrdinals.map some := by
    rw [← Tracker.ordinals_linearize, hself]
  have hnodup : s.effectiveOrdinals.Nodup := by
    rw [hordinals] at hd
    exact hd.of_map some
  have hslots := Template.marks_ofStatement hordinals
  have hcount : s.effectiveOrdinals.length = s.parameters.length := by
    simpa using (congrArg List.length hordinals).symm
  have htracked : (∀ n ∈ s.effectiveOrdinals, (Tracker.linearize s').1.Tracks n) ↔
      ∀ p ∈ s.parameters, ∃ q ∈ (Tracker.linearize s').1.parameters, q.ordinal = p.ordinal := by
    have hall : (∀ o ∈ s.effectiveOrdinals.map some, ∃ q ∈ (Tracker.linearize s').1.parameters, q.ordinal = o) ↔
        ∀ n ∈ s.effectiveOrdinals, (Tracker.linearize s').1.Tracks n := List.forall_mem_map
    rw [← hall, ← hordinals, List.forall_mem_map]
  refine ⟨?_, ?_, ?_, ?_⟩
  · rw [Template.exists_bind_iff, hslots, hcount, Tracker.size_linearize, htracked]
  · intro e he
    rw [Template.eq_of_bind_eq_error he, hslots, hcount, Tracker.size_linearize]
  · intro out hout
    refine ⟨?_, (Template.bind_eq_ok_iff_build?.1 hout).2⟩
    obtain ⟨hl, ps, hps, rfl⟩ := Template.bind_eq_ok_iff.1 hout
    rw [hslots] at hl hps
    rw [Template.withMarks_ofStatement]
    exact forall₂_segments (Tracker.forall₂_isOnly hordinals hnodup hl hps)
  · have hfound : List.Forall₂ (Tracker.linearize s).1.IsFirst s.effectiveOrdinals s.parameters := by
      rw [← Tracker.mapM_get?_eq_some_iff, ← hself]
      exact Tracker.mapM_get?_ordinals hnodup (Tracker.ordinals_linearize s)
    refine Template.bind_eq_ok_iff.2 ⟨?_, s.parameters, ?_, ?_⟩
    · rw [hslots, hcount, Tracker.size_linearize]
    · rw [hslots]
      exact hfound
    · rw [Template.withMarks_ofStatement]
      exact (withMarks_marks s).symm

/-- An update whose parameters have changed places. -/
def swappedUpdate : Statement :=
  ⟨"update t set a=".toList, [(⟨.int 1, some 1⟩, " where b=".toList), (⟨.int 2, some 0⟩, [])]⟩

/-- Two values that have no ordinals yet. -/
def twoValues : Statement :=
  ⟨[], [(⟨.int 7, none⟩, [' ']), (⟨.int 8, none⟩, [])]⟩

/-- The values change places with the parameters, and those of the update itself stay where they are. -/
theorem rebound_by_ordinals_swappedUpdate :
    (Template.ofStatement swappedUpdate).bind (Tracker.linearize twoValues).1
        = .ok ⟨"update t set a=".toList,
          [(⟨.int 8, some 1⟩, " where b=".toList), (⟨.int 7, some 0⟩, [])]⟩ ∧
      (Tracker.linearize twoValues).1.IsOnly ⟨.int 1, some 1⟩ ⟨.int 8, some 1⟩ ∧
      (Template.ofStatement swappedUpdate).bind (Tracker.linearize swappedUpdate).1 = .ok swappedUpdate := by
  obtain ⟨-, -, hpieces, hself⟩ := rebound_by_ordinals swappedUpdate twoValues (by decide) (by decide)
  have hbound : (Template.ofStatement swappedUpdate).bind (Tracker.linearize twoValues).1
      = .ok ⟨"update t set a=".toList,
        [(⟨.int 8, some 1⟩, " where b=".toList), (⟨.int 7, some 0⟩, [])]⟩ := by decide +kernel
  refine ⟨hbound, ?_, hself⟩
  cases (hpieces _ hbound).1 with
  | cons htext hrest =>
    cases hrest with
    | cons hmark hrest =>
      cases hmark with
      | mark honly => exact honly

end JetAdapter
