import JetAdapter.Proofs.Session

/-!
# Parameters are preserved

Adapting a `SELECT` answers a statement that binds the parameters of the given one, each once
(`parameters_preserved`).  Where the text is adapted afresh, restoring sees to it.  Where a template is
bound, only the number of slots is checked, so the templates have to be good: each of them has pairwise
distinct slots (`keeps_distinct_slots`), because the ordinals that a statement is restored with are
distinct whenever the tracked ones are.  That is true of every template at any time, whichever adapters
share the cache.
-/

namespace JetAdapter

/-- What a statement of distinct ordinals is restored to has distinct ordinals. -/
theorem Tracker.ordinals_of_restore {s out : Statement} {text : SqlText}
    (hs : (Statement.effectiveOrdinals s).Nodup) (h : (linearize s).1.restore text = .ok out) :
    ∃ ordinals : List Nat, ordinals.Nodup ∧
      (Statement.parameters out).map Parameter.ordinal = ordinals.map some := by
  obtain ⟨-, ⟨-, he⟩ | ⟨ordinals, -, hd, hm⟩⟩ := eq_of_resolve? (parameters_of_restore h)
  · exact ⟨Statement.effectiveOrdinals s, hs, by rw [he, ordinals_linearize]⟩
  · exact ⟨ordinals, hd, (eq_of_mapM_get? hm).1⟩

/-- The template of an adapted statement has distinct slots. -/
theorem Adapter.keeps_distinct_slots (a : Adapter) {s : Statement}
    (hs : (Statement.effectiveOrdinals s).Nodup) : a.Keeps (fun _ t => t.marks.Nodup) s := by
  intro out _ h
  obtain ⟨text, -, hr⟩ := eq_of_adaptTracked h
  obtain ⟨ordinals, hd, ho⟩ := Tracker.ordinals_of_restore hs hr
  rw [Template.marks_ofStatement ho]
  exact hd

/-- What a `SELECT` is adapted to binds its parameters, each once, if the templates at hand have
distinct slots. -/
theorem Adapter.perm_of_adapt {a : Adapter} {s : Statement} {c : Cache} {out : Adapted}
    (hc : c.Holds fun _ t => t.marks.Nodup) (hs : s.isSelect = true)
    (h : (a.adapt s c).1 = .ok out) : out.parameters = Statement.parameters out.statement ∧
      out.parameters.Perm (Tracker.linearize s).1.parameters := by
  obtain ⟨adapted, rfl, ⟨t, found, hb⟩ | ⟨text, hr⟩⟩ := eq_of_adapt hs h
  · exact ⟨rfl, Template.perm_of_bind (hc _ t found) hb⟩
  · exact ⟨rfl, Tracker.perm_of_restore hr⟩

/-- **Parameters are preserved.**  Whatever has been asked before of the adapters that share a cache, a
`SELECT` is adapted to a statement that binds the tracked parameters, the same values with the same
ordinals and each once; they are answered in the order of the statement. -/
theorem parameters_preserved (limit : Option Nat) (history : List (Adapter × Request))
    (hh : ∀ a s, (a, Request.adapt s) ∈ history → (Statement.effectiveOrdinals s).Nodup)
    (a : Adapter) (s : Statement) (hs : s.isSelect = true) (out : Adapted)
    (h : (a.adapt s ((Cache.empty limit).serveAll history)).1 = .ok out) :
    out.parameters = Statement.parameters out.statement ∧
      out.parameters.Perm (Tracker.linearize s).1.parameters := by
  refine Adapter.perm_of_adapt ?_ hs h
  refine (Cache.holds_empty limit).serveAll ?_
  intro a' s' hm
  exact a'.keeps_distinct_slots (hh a' s' hm)

/-- A search whose parameters change places when it is adapted. -/
def searchFor (needle : SqlText) (start : Int64) : Statement :=
  ⟨"select locate(".toList,
    [(⟨.text needle, none⟩, ", a, ".toList), (⟨.int start, none⟩, ") from t".toList)]⟩

/-- The search as it is adapted. -/
def searchAdapted (needle : SqlText) (start : Int64) : Statement :=
  ⟨"select InStr(".toList,
    [(⟨.int start, some 1⟩, ", a, ".toList), (⟨.text needle, some 0⟩, ") from t".toList)]⟩

/-- A full cache, and an adapter without rules that finds a template of another one in it. -/
theorem parameters_preserved_by_shared_template :
    ((Adapter.ofOptions ⟨[], none, some ['#']⟩).adapt (searchFor ['y'] 5)
      ((Cache.empty (some 1)).serveAll
        [(Adapter.ofOptions .default, .adapt (searchFor ['x'] 2))])).1
      = .ok (Adapter.asAdapted (searchAdapted ['y'] 5)) ∧
    (Statement.parameters (searchAdapted ['y'] 5)).Perm
      [⟨.text ['y'], some 0⟩, ⟨.int 5, some 1⟩] := by
  have h : ((Adapter.ofOptions ⟨[], none, some ['#']⟩).adapt (searchFor ['y'] 5)
      ((Cache.empty (some 1)).serveAll
        [(Adapter.ofOptions .default, .adapt (searchFor ['x'] 2))])).1
      = .ok (Adapter.asAdapted (searchAdapted ['y'] 5)) :=
    by decide +kernel
  have hh : ∀ a s, (a, Request.adapt s)
      ∈ [(Adapter.ofOptions .default, Request.adapt (searchFor ['x'] 2))] →
      (Statement.effectiveOrdinals s).Nodup := by
    intro a s hm
    obtain ⟨-, rfl⟩ : a = Adapter.ofOptions .default ∧ s = searchFor ['x'] 2 := by simpa using hm
    decide
  exact ⟨h, (parameters_preserved (some 1) _ hh _ (searchFor ['y'] 5) (by decide +kernel) _ h).2⟩

end JetAdapter
