import JetAdapter.Proofs.Naming
import JetAdapter.Proofs.Session

/-!
# A cache cannot be noticed

If the parameters of all statements are numbered from zero, an adapter with a cache answers what it would
answer without one, errors included (`adapt_with_cache`).

Statements that have the same text with names may differ in their values, and one may be a text that only
looks as if it had parameters.  But the parameters are numbered alike, as far as they go.  So whatever the
markers of the adapted text are, markers `?` or names, they resolve to the parameters in the slots of the
template (`resolve?_eq_mapM`), and where the numbers of markers and parameters differ, both ways answer the
same error.  That the statement is a `SELECT` can be seen from the text with names as well.
-/

namespace JetAdapter

namespace Tracker

variable {t t' : Tracker}

/-- If the markers resolve to parameters of one tracker that is numbered from zero, they resolve to those of
the same ordinals in any other of the same size. -/
theorem resolve?_eq_mapM (h : t.FromZero) (h' : t'.FromZero) {markers : List Marker}
    {ps : List Parameter} {ordinals : List Nat} (hr : t.resolve? markers = some ps)
    (ho : ps.map Parameter.ordinal = ordinals.map some) (hl : markers.length = t'.size) :
    t'.resolve? markers = ordinals.mapM t'.get? := by
  obtain ⟨hlen, ⟨hp, rfl⟩ | ⟨ns, rfl, hd, hm⟩⟩ := eq_of_resolve? hr
  · -- Markers `?` stand for all parameters in order.
    have hsize : t.size = t'.size := hlen.symm.trans hl
    have hns : ordinals = List.range t'.size := by
      rw [h, hsize] at ho
      exact ((Option.some_injective _).list_map ho).symm
    rw [hns, mapM_get?_ordinals List.nodup_range h']
    exact resolve?_positional hl hp
  · have hns : ns = ordinals := by
      rw [(eq_of_mapM_get? hm).1] at ho
      exact (Option.some_injective _).list_map ho
    subst hns
    exact resolve?_named (by simpa using hl) hd

end Tracker

/-- The template of a restored statement binds other parameters as the text would restore them. -/
theorem Template.bind_ofStatement {t t' : Tracker} (h : t.FromZero) (h' : t'.FromZero)
    {text : SqlText} {out : Statement} (hr : t.restore text = .ok out) :
    (ofStatement out).bind t' = t'.restore text := by
  obtain ⟨ps, hps, hout⟩ := Tracker.eq_of_restore hr
  have hlen := Tracker.length_of_resolve? hps
  have hperm := (Tracker.perm_of_resolve? hps).map Parameter.ordinal
  rw [h] at hperm
  obtain ⟨ordinals, ho, -⟩ := Tracker.exists_ordinals_of_perm hperm
  have hmarks : (ofStatement out).marks = ordinals := by
    apply marks_ofStatement
    rw [hout, Statement.parameters, Marked.marks_withMarks hlen, ho]
  have hcount : ordinals.length = (Marked.cut (lex text)).marks.length := by
    rw [← hlen]
    simpa using (congrArg List.length ho).symm
  rw [bind, Tracker.restore]
  simp only [hmarks, hcount]
  by_cases hl : (Marked.cut (lex text)).marks.length = t'.size
  · rw [if_pos hl, Tracker.resolve?_eq_mapM h h' hps ho hl]
    cases ordinals.mapM t'.get? with
    | none => rfl
    | some qs =>
      simp only
      rw [withMarks_ofStatement, hout, Marked.withMarks_withMarks hlen]
  · have hn : t'.resolve? (Marked.cut (lex text)).marks = none := by
      rw [Tracker.resolve?, if_pos hl]
    rw [if_neg hl, hn]

/-! ### Entries of a cache -/

namespace Adapter

/-- What an adapter makes of statements with a text: the template binds them as they would be adapted, and
the text is that of a `SELECT`. -/
def Answers (a : Adapter) (key : SqlText) (t : Template) : Prop :=
  (∀ s : Statement, (Tracker.linearize s).2 = key → s.isSelect = true) ∧
    ∀ s : Statement, s.Unnumbered → (Tracker.linearize s).2 = key →
      t.bind (Tracker.linearize s).1 = a.adaptTracked (Tracker.linearize s).1 key

theorem keeps_answers (a : Adapter) {s : Statement} (hs : s.Unnumbered) : a.Keeps a.Answers s := by
  intro out hselect hout
  refine ⟨fun s' hk => ?_, fun s' hs' hk => ?_⟩
  · rw [Statement.isSelect_eq] at hselect ⊢
    rw [← hselect]
    exact congrArg (fun t : SqlText => (lex t).head?.any fun l => l.kind.isKeyword .SELECT) hk
  · obtain ⟨text, ht, hr⟩ := eq_of_adaptTracked hout
    rw [adaptTracked_eq, ht]
    exact Template.bind_ofStatement (Tracker.fromZero_linearize hs)
      (Tracker.fromZero_linearize hs') hr

/-- Without a template the cache does not matter. -/
theorem adapt_of_missing {a : Adapter} {s : Statement} {c : Cache}
    (h : c.get? (Tracker.linearize s).2 = none) : (a.adapt s c).1
      = if s.isSelect then
          (a.adaptTracked (Tracker.linearize s).1 (Tracker.linearize s).2).map asAdapted
        else .ok ⟨s, (Tracker.linearize s).1.parameters⟩ := by
  have hstep := adaptation a s c
  generalize a.adapt s c = r at hstep ⊢
  cases hstep with
  | hit t found =>
    rw [h] at found
    cases found
  | untouched missing other => rw [other, if_neg Bool.false_ne_true]
  | refused missing select e failed =>
    rw [if_pos select, failed]
    rfl
  | adapted missing select out done =>
    rw [if_pos select, done]
    rfl

/-- An adapter answers the same with good entries as without any. -/
theorem adapt_of_answers {a : Adapter} {s : Statement} {c c' : Cache} (hc : c.Holds a.Answers)
    (hs : s.Unnumbered) (hc' : c'.get? (Tracker.linearize s).2 = none) :
    (a.adapt s c).1 = (a.adapt s c').1 := by
  rw [adapt_of_missing hc']
  cases h : c.get? (Tracker.linearize s).2 with
  | none => rw [adapt_of_missing h]
  | some t =>
    obtain ⟨hselect, hbind⟩ := hc _ t h
    rw [if_pos (hselect s rfl), ← hbind s hs rfl]
    rw [adapt]
    simp only [h]

end Adapter

/-- **A cache cannot be noticed.**  Whatever an adapter has been asked before, it answers what it would
answer at first, if no parameter comes with an ordinal. -/
theorem adapt_with_cache (o : AdapterOptions) (history : List Request)
    (hh : ∀ s, Request.adapt s ∈ history → s.Unnumbered) (s : Statement) (hs : s.Unnumbered) :
    ((Adapter.ofOptions o).adapt s
        ((Adapter.cacheOf o).serveAll (history.map (Adapter.ofOptions o, ·)))).1
      = ((Adapter.ofOptions o).adapt s (Adapter.cacheOf o)).1 := by
  refine Adapter.adapt_of_answers ?_ hs (Cache.get?_empty _ _)
  refine (Cache.holds_empty _).serveAll ?_
  intro a s' hm
  obtain ⟨r, hr, he⟩ := List.mem_map.1 hm
  cases he
  exact Adapter.keeps_answers _ (hh s' hr)

/-- A text that looks as if it had a parameter is refused for the template of one that has, as it is
without it. -/
theorem adapt_with_cache_for_lookalike :
    ((Adapter.ofOptions .default).adapt ⟨"select @p0".toList, []⟩
        ((Adapter.cacheOf .default).serveAll
          ([.adapt ⟨"select ".toList, [(⟨.int 1, none⟩, [])]⟩].map
            (Adapter.ofOptions .default, ·)))).1
      = .error (.parameterLoss 0 1) := by
  have h := adapt_with_cache .default [.adapt ⟨"select ".toList, [(⟨.int 1, none⟩, [])]⟩]
    (by
      intro s hs
      obtain rfl : s = ⟨"select ".toList, [(⟨.int 1, none⟩, [])]⟩ := by simpa using hs
      simp [Statement.Unnumbered, Statement.parameters, Marked.marks])
    ⟨"select @p0".toList, []⟩ (by simp [Statement.Unnumbered, Statement.parameters, Marked.marks])
  rw [h]
  decide +kernel

end JetAdapter
