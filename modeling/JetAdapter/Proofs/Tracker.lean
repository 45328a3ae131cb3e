import Mathlib.Data.List.Forall2
import Mathlib.Data.List.Nodup
import Mathlib.Data.List.Perm.Subperm
import Mathlib.Data.Option.Basic
import JetAdapter.Template.Basic

/-!
# What markers resolve to

A tracker looks parameters up one marker at a time.  This file says what comes out as a whole.
`eq_of_resolve?` splits the two ways of resolving: markers `?` stand for the tracked parameters as they
come, and named markers for parameters of pairwise distinct ordinals.  In both cases nothing is lost and
nothing comes twice (`perm_of_resolve?`): distinct ordinals make distinct parameters, and as many distinct
members of a list as the list is long are all of it.  So `Tracker.verify` never refuses what
`Tracker.restore` answers (`verify_of_restore`).

Looking up several ordinals finds the first parameter of each (`mapM_get?_eq_some_iff`), and it succeeds if and
only if all of them are tracked (`exists_forall₂_isFirst_iff`).

Templates are resolved by the same look-up; `marks_ofStatement` says which slots they have.
-/

namespace JetAdapter

/-! ### Texts and marks -/

namespace Marked

variable {α β γ : Type}

theorem withMarks_eq_zip (m : Marked α) (bs : List β) :
    m.withMarks bs = ⟨m.head, bs.zip (m.tail.map Prod.snd)⟩ := by
  rw [withMarks]
  congr 1
  induction m.tail generalizing bs with
  | nil => simp
  | cons p tail ih =>
    cases bs with
    | nil => simp
    | cons b bs => simp [ih]

theorem length_marks (m : Marked α) : m.marks.length = m.tail.length := by
  simp [marks]

theorem marks_withMarks {m : Marked α} {bs : List β} (h : bs.length = m.marks.length) :
    (m.withMarks bs).marks = bs := by
  rw [withMarks_eq_zip, marks]
  rw [length_marks] at h
  exact List.map_fst_zip (by simp [h])

theorem prepend_prepend (s t : SqlText) (m : Marked α) :
    (m.prepend t).prepend s = m.prepend (s ++ t) := by
  simp [prepend]

theorem withMarks_marks (m : Marked α) : m.withMarks m.marks = m := by
  rw [withMarks_eq_zip, marks, ← List.zip_of_prod rfl rfl]

theorem withMarks_withMarks {m : Marked α} {bs : List β} {cs : List γ}
    (h : bs.length = m.marks.length) : (m.withMarks bs).withMarks cs = m.withMarks cs := by
  rw [length_marks] at h
  rw [withMarks_eq_zip, withMarks_eq_zip m cs, withMarks_eq_zip m bs]
  congr 2
  exact List.map_snd_zip (by simp [h])

end Marked

/-! ### Numbered statements -/

namespace Statement

/-- The ordinals by which the parameters go: their own, or the numbers of their places. -/
def effectiveOrdinals (s : Statement) : List Nat :=
  s.parameters.mapIdx fun i p => p.ordinal.getD i

/-- Whether no parameter has an ordinal yet. -/
def Unnumbered (s : Statement) : Prop :=
  ∀ p ∈ s.parameters, p.ordinal = none

theorem parameters_numbered (s : Statement) :
    s.numbered.parameters = s.parameters.mapIdx fun i p => ⟨p.value, some (p.ordinal.getD i)⟩ := by
  rw [numbered]
  exact Marked.marks_withMarks (by simp [parameters])

/-- Numbering leaves parameters alone that have ordinals. -/
theorem numbered_eq_self {s : Statement} (h : ∀ p ∈ s.parameters, p.ordinal ≠ none) : s.numbered = s := by
  have hsame : (s.parameters.mapIdx fun i p => (⟨p.value, some (p.ordinal.getD i)⟩ : Parameter))
      = s.parameters := by
    apply List.ext_getElem
    · exact List.length_mapIdx
    · intro i hi hi'
      obtain ⟨n, hn⟩ := Option.ne_none_iff_exists'.1 (h _ (List.getElem_mem hi'))
      rw [List.getElem_mapIdx, hn, Option.getD_some, ← hn]
  rw [numbered, hsame]
  exact Marked.withMarks_marks s

theorem effectiveOrdinals_eq_range {s : Statement} (h : s.Unnumbered) :
    effectiveOrdinals s = List.range (parameters s).length := by
  rw [effectiveOrdinals]
  apply List.ext_getElem
  · simp
  · intro i h1 h2
    have hi : i < (parameters s).length := by simpa using h1
    simp [h _ (List.getElem_mem hi)]

end Statement

namespace Tracker

/-- A statement whose parameters have ordinals is tracked as it is. -/
theorem parameters_linearize_eq_self {s : Statement} (h : ∀ p ∈ Statement.parameters s, p.ordinal ≠ none) :
    (linearize s).1.parameters = Statement.parameters s :=
  congrArg Statement.parameters (Statement.numbered_eq_self h)

theorem parameters_linearize (s : Statement) : (linearize s).1.parameters
    = (Statement.parameters s).mapIdx fun i p => ⟨p.value, some (p.ordinal.getD i)⟩ :=
  Statement.parameters_numbered s

/-- The tracked ordinals are the ones that the parameters go by. -/
theorem ordinals_linearize (s : Statement) : (linearize s).1.parameters.map Parameter.ordinal
    = (Statement.effectiveOrdinals s).map some := by
  rw [parameters_linearize, Statement.effectiveOrdinals]
  apply List.ext_getElem <;> simp

/-- Whether the tracked parameters are numbered from zero. -/
def FromZero (t : Tracker) : Prop :=
  t.parameters.map Parameter.ordinal = (List.range t.size).map some

theorem size_linearize (s : Statement) : (linearize s).1.size = (Statement.parameters s).length := by
  rw [size, parameters_linearize, List.length_mapIdx]

theorem fromZero_linearize {s : Statement} (h : s.Unnumbered) : (linearize s).1.FromZero := by
  rw [FromZero, ordinals_linearize, Statement.effectiveOrdinals_eq_range h, size_linearize]

/-! ### Looking up -/

theorem get?_eq_some {t : Tracker} {n : Nat} {p : Parameter} (h : t.get? n = some p) :
    p ∈ t.parameters ∧ p.ordinal = some n := by
  rw [get?] at h
  exact ⟨List.mem_of_find?_eq_some h, by simpa using List.find?_some h⟩

/-- Looking up several ordinals gives tracked parameters with exactly these ordinals. -/
theorem eq_of_mapM_get? {t : Tracker} {ordinals : List Nat} {ps : List Parameter}
    (h : ordinals.mapM t.get? = some ps) :
    ps.map Parameter.ordinal = ordinals.map some ∧ ps ⊆ t.parameters := by
  induction ordinals generalizing ps with
  | nil =>
    obtain rfl : [] = ps := by simpa using h
    simp
  | cons n ordinals ih =>
    obtain ⟨p, hp, qs, hqs, rfl⟩ : ∃ p, t.get? n = some p ∧
        ∃ qs, ordinals.mapM t.get? = some qs ∧ p :: qs = ps := by
      simpa [List.mapM_cons, Option.bind_eq_some_iff] using h
    obtain ⟨hm, ho⟩ := get?_eq_some hp
    obtain ⟨hos, hms⟩ := ih hqs
    exact ⟨by simp [ho, hos], List.cons_subset.2 ⟨hm, hms⟩⟩

/-- Whether some tracked parameter has an ordinal. -/
def Tracks (t : Tracker) (n : Nat) : Prop :=
  ∃ p ∈ t.parameters, p.ordinal = some n

/-- Whether a parameter is the first of the tracked ones with an ordinal. -/
def IsFirst (t : Tracker) (n : Nat) (p : Parameter) : Prop :=
  p.ordinal = some n ∧ ∃ before after, t.parameters = before ++ p :: after ∧
    ∀ q ∈ before, q.ordinal ≠ some n

theorem get?_eq_some_iff {t : Tracker} {n : Nat} {p : Parameter} :
    t.get? n = some p ↔ t.IsFirst n p := by
  rw [get?, List.find?_eq_some_iff_append]
  simp [IsFirst]

theorem exists_isFirst_iff {t : Tracker} {n : Nat} : (∃ p, t.IsFirst n p) ↔ t.Tracks n := by
  simp only [← get?_eq_some_iff, ← Option.isSome_iff_exists]
  rw [get?, List.find?_isSome]
  simp [Tracks]

/-- Looking up several ordinals finds the first parameter with each of them. -/
theorem mapM_get?_eq_some_iff {t : Tracker} {ordinals : List Nat} {ps : List Parameter} :
    ordinals.mapM t.get? = some ps ↔ List.Forall₂ t.IsFirst ordinals ps := by
  induction ordinals generalizing ps with
  | nil => simp [eq_comm]
  | cons n ordinals ih =>
    constructor
    · intro h
      obtain ⟨p, hp, qs, hqs, rfl⟩ : ∃ p, t.get? n = some p ∧
          ∃ qs, ordinals.mapM t.get? = some qs ∧ p :: qs = ps := by
        simpa [List.mapM_cons, Option.bind_eq_some_iff] using h
      exact .cons (get?_eq_some_iff.1 hp) (ih.1 hqs)
    · intro h
      cases h with
      | cons hp hps => simp [List.mapM_cons, get?_eq_some_iff.2 hp, ih.2 hps]

theorem exists_forall₂_isFirst_iff {t : Tracker} {ordinals : List Nat} :
    (∃ ps, List.Forall₂ t.IsFirst ordinals ps) ↔ ∀ n ∈ ordinals, t.Tracks n := by
  induction ordinals with
  | nil => simp
  | cons n ordinals ih =>
    rw [List.forall_mem_cons, ← ih, ← exists_isFirst_iff]
    constructor
    · rintro ⟨_, h⟩
      cases h with
      | cons hp hps => exact ⟨⟨_, hp⟩, _, hps⟩
    · rintro ⟨⟨p, hp⟩, ps, hps⟩
      exact ⟨p :: ps, .cons hp hps⟩

/-- Where the tracked ordinals are distinct, each tracked parameter is found by its own. -/
theorem mapM_get?_ordinals {t : Tracker} {ordinals : List Nat} (hd : ordinals.Nodup)
    (ho : t.parameters.map Parameter.ordinal = ordinals.map some) :
    ordinals.mapM t.get? = some t.parameters := by
  -- Every parameter behind a prefix of the list is found, since the prefix has other ordinals.
  have found : ∀ (before ps : List Parameter) (ns : List Nat), t.parameters = before ++ ps →
      ps.map Parameter.ordinal = ns.map some → ns.mapM t.get? = some ps := by
    intro before ps
    induction ps generalizing before with
    | nil =>
      intro ns _ hns
      obtain rfl : ns = [] := by simpa using hns.symm
      rfl
    | cons p ps ih =>
      intro ns hps hns
      cases ns with
      | nil => simp at hns
      | cons n ns =>
        obtain ⟨hn, hns⟩ : p.ordinal = some n ∧ ps.map Parameter.ordinal = ns.map some := by
          simpa using hns
        have hbefore : ∀ q ∈ before, ¬ q.ordinal = some n := by
          intro q hq he
          have hnd : (t.parameters.map Parameter.ordinal).Nodup := by
            rw [ho]
            exact hd.map fun _ _ => Option.some.inj
          rw [hps, List.map_append, List.map_cons, hn] at hnd
          exact (List.nodup_append.1 hnd).2.2 _ (List.mem_map_of_mem hq) _
            List.mem_cons_self he
        have hp : t.get? n = some p := by
          rw [get?, hps, List.find?_append, List.find?_eq_none.2 (by simpa using hbefore)]
          simp [hn]
        have hrest := ih (before ++ [p]) ns (by simp [hps]) hns
        simp [List.mapM_cons, hp, hrest]
  exact found [] t.parameters ordinals rfl ho

/-- What is a list of ordinals up to its order is one. -/
theorem exists_ordinals_of_perm {os : List (Option Nat)} {ordinals : List Nat}
    (h : os.Perm (ordinals.map some)) : ∃ ns : List Nat, os = ns.map some ∧ ns.Perm ordinals := by
  have hsome : ∀ o ∈ os, o = some (o.getD 0) := by
    intro o ho
    obtain ⟨n, -, rfl⟩ := List.mem_map.1 (h.mem_iff.1 ho)
    rfl
  have hos : os = (os.map fun o => o.getD 0).map some := by
    calc os = os.map id := (List.map_id os).symm
      _ = os.map fun o => some (o.getD 0) := List.map_congr_left hsome
      _ = (os.map fun o => o.getD 0).map some := List.map_map.symm
  rw [hos] at h
  exact ⟨_, hos, (List.map_perm_map_iff (Option.some_injective _)).1 h⟩

/-- As many parameters of distinct ordinals as are tracked are the tracked ones. -/
theorem perm_of_mapM_get? {t : Tracker} {ordinals : List Nat} {ps : List Parameter}
    (hd : ordinals.Nodup) (hl : ordinals.length = t.size)
    (h : ordinals.mapM t.get? = some ps) : ps.Perm t.parameters := by
  obtain ⟨ho, hm⟩ := eq_of_mapM_get? h
  have hnd : ps.Nodup := by
    apply List.Nodup.of_map Parameter.ordinal
    rw [ho]
    exact hd.map fun _ _ => Option.some.inj
  have hlen : ps.length = ordinals.length := by
    simpa using congrArg List.length ho
  refine (List.subperm_of_subset hnd hm).perm_of_length_le ?_
  rw [hlen, hl]
  exact Nat.le_refl _

/-! ### Resolving -/

theorem mapM_ordinal?_eq_some {markers : List Marker} {ordinals : List Nat}
    (h : markers.mapM Marker.ordinal? = some ordinals) : markers = ordinals.map Marker.named := by
  induction markers generalizing ordinals with
  | nil =>
    obtain rfl : [] = ordinals := by simpa using h
    rfl
  | cons m markers ih =>
    obtain ⟨n, hn, ns, hns, rfl⟩ : ∃ n, m.ordinal? = some n ∧
        ∃ ns, markers.mapM Marker.ordinal? = some ns ∧ n :: ns = ordinals := by
      simpa [List.mapM_cons, Option.bind_eq_some_iff] using h
    cases m with
    | positional => simp [Marker.ordinal?] at hn
    | named k =>
      obtain rfl : k = n := by simpa [Marker.ordinal?] using hn
      rw [ih hns, List.map_cons]

theorem mapM_ordinal?_named (ordinals : List Nat) :
    (ordinals.map Marker.named).mapM Marker.ordinal? = some ordinals := by
  induction ordinals with
  | nil => rfl
  | cons n ordinals ih => simp [List.mapM_cons, Marker.ordinal?, ih]

/-- The two ways in which markers resolve. -/
theorem eq_of_resolve? {t : Tracker} {markers : List Marker} {ps : List Parameter}
    (h : t.resolve? markers = some ps) : markers.length = t.size ∧
      ((∀ m ∈ markers, m = .positional) ∧ ps = t.parameters ∨
        ∃ ordinals : List Nat, markers = ordinals.map Marker.named ∧ ordinals.Nodup ∧
          ordinals.mapM t.get? = some ps) := by
  rw [resolve?] at h
  split at h
  · cases h
  · next hl =>
    refine ⟨not_not.1 hl, ?_⟩
    split at h
    · next hp =>
      exact .inl ⟨by simpa using hp, (Option.some.inj h).symm⟩
    · obtain ⟨ordinals, ho, hr⟩ := Option.bind_eq_some_iff.1 h
      split at hr
      · next hd => exact .inr ⟨ordinals, mapM_ordinal?_eq_some ho, hd, hr⟩
      · cases hr

theorem resolve?_positional {t : Tracker} {markers : List Marker} (hl : markers.length = t.size)
    (hp : ∀ m ∈ markers, m = .positional) : t.resolve? markers = some t.parameters := by
  rw [resolve?, if_neg (not_not_intro hl), if_pos (by simpa using hp)]

theorem resolve?_named {t : Tracker} {ordinals : List Nat} (hl : ordinals.length = t.size)
    (hd : ordinals.Nodup) : t.resolve? (ordinals.map Marker.named) = ordinals.mapM t.get? := by
  cases ordinals with
  | nil =>
    -- Without markers the two ways of resolving cannot be told apart.
    have hn : t.parameters = [] := List.length_eq_zero_iff.1 hl.symm
    rw [resolve?_positional (by simpa using hl) (by simp), hn]
    rfl
  | cons n ordinals =>
    have hall : ¬ ((n :: ordinals).map Marker.named).all (· = .positional) := by simp
    rw [resolve?, if_neg (by simpa using hl), if_neg hall, mapM_ordinal?_named]
    simp [hd]

/-- Resolving loses no parameter and takes none twice. -/
theorem perm_of_resolve? {t : Tracker} {markers : List Marker} {ps : List Parameter}
    (h : t.resolve? markers = some ps) : ps.Perm t.parameters := by
  obtain ⟨hl, ⟨-, rfl⟩ | ⟨ordinals, rfl, hd, hm⟩⟩ := eq_of_resolve? h
  · exact .refl _
  · exact perm_of_mapM_get? hd (by simpa using hl) hm

theorem length_of_resolve? {t : Tracker} {markers : List Marker} {ps : List Parameter}
    (h : t.resolve? markers = some ps) : ps.length = markers.length := by
  rw [(perm_of_resolve? h).length_eq, (eq_of_resolve? h).1, size]

/-! ### Restoring -/

theorem eq_of_restore {t : Tracker} {text : SqlText} {s : Statement} (h : t.restore text = .ok s) :
    ∃ ps, t.resolve? (Marked.ofLexemes Marker.ofKind? (lex text)).marks = some ps ∧
      s = (Marked.ofLexemes Marker.ofKind? (lex text)).withMarks ps := by
  unfold restore at h
  simp only at h
  split at h
  · next ps hr => exact ⟨ps, hr, by cases h; rfl⟩
  · cases h

theorem parameters_of_restore {t : Tracker} {text : SqlText} {s : Statement}
    (h : t.restore text = .ok s) :
    t.resolve? (Marked.ofLexemes Marker.ofKind? (lex text)).marks = some (Statement.parameters s) := by
  obtain ⟨ps, hr, rfl⟩ := eq_of_restore h
  rw [hr, Statement.parameters, Marked.marks_withMarks (length_of_resolve? hr)]

/-- What is restored binds the tracked parameters, each once. -/
theorem perm_of_restore {t : Tracker} {text : SqlText} {s : Statement}
    (h : t.restore text = .ok s) : (Statement.parameters s).Perm t.parameters :=
  perm_of_resolve? (parameters_of_restore h)

theorem verify_of_perm {t : Tracker} {s : Statement}
    (h : (Statement.parameters s).Perm t.parameters) : t.verify s = .ok () := by
  rw [verify, if_pos (List.isPerm_iff.2 (h.map Parameter.ordinal))]

/-- The check after restoring never fails. -/
theorem verify_of_restore {t : Tracker} {text : SqlText} {s : Statement}
    (h : t.restore text = .ok s) : t.verify s = .ok () :=
  verify_of_perm (perm_of_restore h)

end Tracker

/-! ### Templates -/

namespace Template

theorem map_snd_slotsFrom (index : Nat) (tail : List (Parameter × SqlText)) :
    (slotsFrom index tail).map Prod.snd = tail.map Prod.snd := by
  induction tail generalizing index with
  | nil => rfl
  | cons pt tail ih => simp [slotsFrom, ih]

theorem map_fst_slotsFrom {tail : List (Parameter × SqlText)} {ordinals : List Nat} (index : Nat)
    (h : tail.map (Parameter.ordinal ∘ Prod.fst) = ordinals.map some) :
    (slotsFrom index tail).map Prod.fst = ordinals := by
  induction tail generalizing index ordinals with
  | nil =>
    obtain rfl : ordinals = [] := by simpa using h.symm
    rfl
  | cons pt tail ih =>
    cases ordinals with
    | nil => simp at h
    | cons n ordinals =>
      obtain ⟨hn, ht⟩ : pt.1.ordinal = some n ∧
          tail.map (Parameter.ordinal ∘ Prod.fst) = ordinals.map some := by simpa using h
      simp [slotsFrom, hn, ih _ ht]

/-- The slots of a template are the ordinals of its statement, where all parameters have one. -/
theorem marks_ofStatement {s : Statement} {ordinals : List Nat}
    (h : (Statement.parameters s).map Parameter.ordinal = ordinals.map some) :
    (ofStatement s).marks = ordinals := by
  apply map_fst_slotsFrom
  simpa [Statement.parameters, Marked.marks] using h

/-- A template keeps the texts of its statement. -/
theorem withMarks_ofStatement {α : Type} (s : Statement) (as : List α) :
    (ofStatement s).withMarks as = s.withMarks as := by
  rw [Marked.withMarks_eq_zip, Marked.withMarks_eq_zip]
  simp [ofStatement, map_snd_slotsFrom]

theorem eq_of_bind {t : Template} {tracker : Tracker} {s : Statement}
    (h : t.bind tracker = .ok s) : t.marks.length = tracker.size ∧
      ∃ ps, t.marks.mapM tracker.get? = some ps ∧ s = t.withMarks ps := by
  unfold bind at h
  simp only at h
  split at h
  · next hl =>
    split at h
    · next ps hm => exact ⟨hl, ps, hm, by cases h; rfl⟩
    · cases h
  · cases h

/-- A template with distinct slots binds the tracked parameters, each once. -/
theorem perm_of_bind {t : Template} {tracker : Tracker} {s : Statement} (hd : t.marks.Nodup)
    (h : t.bind tracker = .ok s) : (Statement.parameters s).Perm tracker.parameters := by
  obtain ⟨hl, ps, hm, rfl⟩ := eq_of_bind h
  have hlen : ps.length = t.marks.length := by
    simpa using congrArg List.length (Tracker.eq_of_mapM_get? hm).1
  rw [Statement.parameters, Marked.marks_withMarks hlen]
  exact Tracker.perm_of_mapM_get? hd hl hm

end Template

end JetAdapter
