import JetAdapter.Proofs.Entries
import JetAdapter.Proofs.Transparency

/-!
# Adapters with different options on one cache

Templates are kept by the text of a statement alone, so adapters that share a cache answer from the templates
of each other.  An adapter that finds a template answers what the adapter that wrote it answers
(`Adapter.adapt_of_foreign`), and one that finds none what it answers without a cache.  So sharing is noticed
exactly at those statements whose text has a template and which the two adapters take differently
(`shared_cache_unnoticed_iff`).
-/

namespace JetAdapter

namespace Adapter

variable {a b : Adapter} {s : Statement} {c c' : Cache}

/-- Where there is a template, it does not matter which adapter is asked. -/
theorem adapt_of_found (h : (c.get? (Tracker.linearize s).2).isSome = true) :
    b.adapt s c = a.adapt s c := by
  obtain ⟨t, ht⟩ := Option.isSome_iff_exists.1 h
  rw [adapt, adapt]
  simp only [ht]

/-- With templates of one adapter at hand, another one answers as that one, or as it does alone. -/
theorem adapt_of_foreign (hc : c.Holds a.Answers) (hs : s.Unnumbered)
    (hc' : c'.get? (Tracker.linearize s).2 = none) :
    (b.adapt s c).1 = if (c.get? (Tracker.linearize s).2).isSome then (a.adapt s c').1
      else (b.adapt s c').1 := by
  split
  · next h => rw [adapt_of_found h, adapt_of_answers hc hs hc']
  · next h => rw [adapt_of_missing hc', adapt_of_missing (by simpa using h)]

end Adapter

/-- **When a shared cache is not noticed.**  An adapter on the cache that another one has used answers a parsed
statement as it would alone, exactly if there is no template for the text of the statement or the two adapters
answer it alike. -/
theorem shared_cache_unnoticed_iff (o₁ o₂ : AdapterOptions) (history : List Request)
    (hh : ∀ s, Request.adapt s ∈ history → ∃ t values, Statement.parse t values = .ok s)
    (t : SqlText) (values : List SqlValue) (s : Statement) (hs : Statement.parse t values = .ok s)
    (c : Cache) (hc : c = (Adapter.cacheOf o₁).serveAll (history.map (Adapter.ofOptions o₁, ·))) :
    ((Adapter.ofOptions o₂).adapt s c).1 = ((Adapter.ofOptions o₂).adapt s (Adapter.cacheOf o₂)).1 ↔
      c.get? (Tracker.linearize s).2 = none ∨
        ((Adapter.ofOptions o₁).adapt s (Adapter.cacheOf o₁)).1
          = ((Adapter.ofOptions o₂).adapt s (Adapter.cacheOf o₂)).1 := by
  have hholds : c.Holds (Adapter.ofOptions o₁).Answers := by
    rw [hc]
    refine (Cache.holds_empty _).serveAll ?_
    intro a s' hm
    obtain ⟨r, hr, he⟩ := List.mem_map.1 hm
    cases he
    obtain ⟨t', values', hp⟩ := hh s' hr
    exact Adapter.keeps_answers _ (Statement.unnumbered_of_parse hp)
  have hfresh : ∀ o : AdapterOptions, (Adapter.cacheOf o).get? (Tracker.linearize s).2 = none :=
    fun o => Cache.get?_empty _ _
  have halone : ((Adapter.ofOptions o₁).adapt s (Adapter.cacheOf o₂)).1
      = ((Adapter.ofOptions o₁).adapt s (Adapter.cacheOf o₁)).1 := by
    rw [Adapter.adapt_of_missing (hfresh o₂), Adapter.adapt_of_missing (hfresh o₁)]
  rw [Adapter.adapt_of_foreign hholds (Statement.unnumbered_of_parse hs) (hfresh o₂), halone]
  cases hfound : c.get? (Tracker.linearize s).2 with
  | none => simp
  | some template => simp

/-- Statements that differ in their values only look for the same template. -/
example : (Tracker.linearize ⟨"select ".toList, [(⟨.int 1, none⟩, " from t".toList)]⟩).2
    = (Tracker.linearize ⟨"select ".toList, [(⟨.text ['y'], none⟩, " from t".toList)]⟩).2 := by
  decide +kernel

/-- A template is found for a statement that both adapters take alike. -/
theorem shared_cache_unnoticed_for_count :
    ((Adapter.ofOptions ⟨[], none, none⟩).adapt ⟨"select count(a)".toList, []⟩
        ((Adapter.cacheOf .default).serveAll
          ([.adapt ⟨"select count(a)".toList, []⟩].map (Adapter.ofOptions .default, ·)))).1
      = ((Adapter.ofOptions ⟨[], none, none⟩).adapt ⟨"select count(a)".toList, []⟩
          (Adapter.cacheOf ⟨[], none, none⟩)).1 := by
  have hparse : Statement.parse "select count(a)".toList [] = .ok ⟨"select count(a)".toList, []⟩ := by
    decide +kernel
  refine (shared_cache_unnoticed_iff .default ⟨[], none, none⟩ [.adapt ⟨"select count(a)".toList, []⟩] ?_
    _ [] _ hparse _ rfl).2 (.inr (by decide +kernel))
  intro s hs
  obtain rfl : s = ⟨"select count(a)".toList, []⟩ := by simpa using hs
  exact ⟨_, _, hparse⟩

/-- The template of an adapter without rules answers for one with a rule for the statement. -/
theorem not_shared_cache_unnoticed :
    ¬ ∀ (o₁ o₂ : AdapterOptions) (history : List Statement) (t : SqlText) (values : List SqlValue)
      (s : Statement), (o₁.rules ≠ o₂.rules ∨ o₁.endMarker ≠ o₂.endMarker) →
      Statement.parse t values = .ok s →
      ((Adapter.ofOptions o₂).adapt s ((Adapter.cacheOf o₁).serveAll
          (history.map fun h => (Adapter.ofOptions o₁, .adapt h)))).1
        = ((Adapter.ofOptions o₂).adapt s (Adapter.cacheOf o₂)).1 := by
  intro h
  have heq := h ⟨[], none, none⟩ .default [⟨"select upper(a) from t".toList, []⟩]
    "select upper(a) from t".toList [] ⟨"select upper(a) from t".toList, []⟩ (by decide)
    (by decide +kernel)
  exact absurd heq (by decide +kernel)

end JetAdapter
