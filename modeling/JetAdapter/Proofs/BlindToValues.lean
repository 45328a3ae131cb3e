import JetAdapter.Proofs.Pieces
import JetAdapter.Proofs.Session

/-!
# Values are not looked at

An adapter moves the values of parameters along and never looks at one.  So a function may be applied to all values
of a statement before it is adapted or after it: the answer is the same, and so is the cache (`adapt_mapValues`).

No step between a statement and its answer depends on values.  The text with names, by which templates are kept, is
made of texts and ordinals; parameters are found by their ordinals alone, and of several with one ordinal the
first one is taken whatever the values are; the check behind it counts ordinals.  Each step has a lemma that moves the
function past it, and `blind_to_values` follows by going through a request, and then through a session.
-/

namespace JetAdapter

variable {α β γ : Type} (f : SqlValue → SqlValue)

/-! ### Marks of a text -/

namespace Marked

theorem marks_map (g : α → β) (m : Marked α) : (m.map g).marks = m.marks.map g := by
  simp [map, marks]

theorem render_map (g : α → β) (write : β → SqlText) (m : Marked α) :
    (m.map g).render write = m.render (write ∘ g) := by
  simp [map, render, List.flatMap_map]

theorem withMarks_map (g : α → β) (m : Marked α) (cs : List γ) : (m.map g).withMarks cs = m.withMarks cs := by
  rw [withMarks_eq_zip, withMarks_eq_zip, map, List.map_map]
  rfl

theorem map_withMarks (g : β → γ) (m : Marked α) (bs : List β) :
    (m.withMarks bs).map g = m.withMarks (bs.map g) := by
  rw [withMarks_eq_zip, withMarks_eq_zip, map, List.zip_map_left]
  rfl

/-- Changed marks leave the pieces of the text as they are. -/
theorem forall₂_segments_map (g : α → β) (m : Marked α) :
    List.Forall₂ (Segment.Like fun a b => b = g a) m.segments (m.map g).segments := by
  have hmap : m.map g = m.withMarks (m.marks.map g) := by
    rw [← map_withMarks, withMarks_marks]
  rw [hmap]
  refine forall₂_segments ?_
  rw [List.forall₂_map_right_iff, List.forall₂_same]
  exact fun _ _ => rfl

end Marked

/-! ### Statements and trackers -/

/-- The parameter with a function applied to its value. -/
def Parameter.mapValue (p : Parameter) : Parameter :=
  ⟨f p.value, p.ordinal⟩

/-- The statement with a function applied to every value: the texts and the ordinals stay. -/
def Statement.mapValues (s : Statement) : Statement :=
  Marked.map (Parameter.mapValue f) s

/-- The tracker with a function applied to every value. -/
def Tracker.mapValues (t : Tracker) : Tracker :=
  ⟨t.parameters.map (Parameter.mapValue f)⟩

/-- The answer with a function applied to every value, in the statement and in the list of parameters. -/
def Adapted.mapValues (out : Adapted) : Adapted :=
  ⟨out.statement.mapValues f, out.parameters.map (Parameter.mapValue f)⟩

namespace Statement

theorem parameters_mapValues (s : Statement) :
    (s.mapValues f).parameters = s.parameters.map (Parameter.mapValue f) :=
  Marked.marks_map _ s

theorem numbered_mapValues (s : Statement) : (s.mapValues f).numbered = s.numbered.mapValues f := by
  rw [numbered, numbered, mapValues, mapValues, Marked.map_withMarks, Marked.withMarks_map, ← mapValues,
    parameters_mapValues]
  congr 1
  apply List.ext_getElem <;> simp [Parameter.mapValue]

/-- Ordinals make the text with names, values do not. -/
theorem namedSql_mapValues (s : Statement) : (s.mapValues f).namedSql = s.namedSql := by
  rw [namedSql, numbered_mapValues, mapValues, Marked.render_map]
  rfl

theorem isSelect_mapValues (s : Statement) : (s.mapValues f).isSelect = s.isSelect := by
  rw [isSelect, sql, mapValues, Marked.render_map]
  rfl

end Statement

namespace Tracker

variable {t : Tracker}

theorem linearize_mapValues (s : Statement) :
    linearize (s.mapValues f) = ((linearize s).1.mapValues f, (linearize s).2) := by
  rw [linearize, linearize, mapValues, Statement.namedSql_mapValues, Statement.numbered_mapValues,
    Statement.parameters_mapValues]

theorem size_mapValues (t : Tracker) : (t.mapValues f).size = t.size :=
  List.length_map ..

/-- The first parameter with an ordinal stays the first one. -/
theorem get?_mapValues (t : Tracker) (n : Nat) :
    (t.mapValues f).get? n = (t.get? n).map (Parameter.mapValue f) := by
  rw [get?, get?, mapValues, List.find?_map]
  rfl

theorem mapM_get?_mapValues (t : Tracker) (ordinals : List Nat) :
    ordinals.mapM (t.mapValues f).get? = (ordinals.mapM t.get?).map (List.map (Parameter.mapValue f)) := by
  induction ordinals with
  | nil => rfl
  | cons n ordinals ih =>
    rw [List.mapM_cons, List.mapM_cons, get?_mapValues, ih]
    cases t.get? n with
    | none => rfl
    | some p => cases ordinals.mapM t.get? <;> rfl

theorem resolve?_mapValues (t : Tracker) (markers : List Marker) :
    (t.mapValues f).resolve? markers = (t.resolve? markers).map (List.map (Parameter.mapValue f)) := by
  rw [resolve?, resolve?, size_mapValues]
  split
  · rfl
  split
  · rfl
  cases markers.mapM Marker.ordinal? with
  | none => rfl
  | some ordinals =>
    show (if ordinals.Nodup then ordinals.mapM (t.mapValues f).get? else none)
      = (if ordinals.Nodup then ordinals.mapM t.get? else none).map _
    split
    · exact mapM_get?_mapValues f t ordinals
    · rfl

theorem restore_mapValues (t : Tracker) (text : SqlText) :
    (t.mapValues f).restore text = (t.restore text).map (Statement.mapValues f) := by
  simp only [restore, resolve?_mapValues, size_mapValues]
  cases t.resolve? (Marked.ofLexemes Marker.ofKind? (lex text)).marks with
  | none => rfl
  | some ps => exact congrArg Except.ok (Marked.map_withMarks _ _ ps).symm

end Tracker

theorem Template.ofStatement_mapValues (s : Statement) : ofStatement (s.mapValues f) = ofStatement s := by
  have slots : ∀ (tail : List (Parameter × SqlText)) (index : Nat),
      slotsFrom index (tail.map fun (p, t) => (p.mapValue f, t)) = slotsFrom index tail := by
    intro tail
    induction tail with
    | nil => intro index; rfl
    | cons pt tail ih =>
      intro index
      rw [List.map_cons, slotsFrom, slotsFrom, ih]
      rfl
  rw [ofStatement, ofStatement]
  exact congrArg (Marked.mk s.head) (slots s.tail _)

theorem Template.bind_mapValues (t : Template) (tracker : Tracker) :
    t.bind (tracker.mapValues f) = (t.bind tracker).map (Statement.mapValues f) := by
  simp only [bind, Tracker.size_mapValues, Tracker.mapM_get?_mapValues]
  split
  · cases t.marks.mapM tracker.get? with
    | none => rfl
    | some ps => exact congrArg Except.ok (Marked.map_withMarks _ t ps).symm
  · rfl

/-! ### Adapting -/

namespace Adapter

theorem asAdapted_mapValues (s : Statement) : asAdapted (s.mapValues f) = (asAdapted s).mapValues f := by
  rw [asAdapted, Statement.parameters_mapValues]
  rfl

theorem adaptTracked_mapValues (a : Adapter) (t : Tracker) (text : SqlText) :
    a.adaptTracked (t.mapValues f) text = (a.adaptTracked t text).map (Statement.mapValues f) := by
  rw [adaptTracked_eq, adaptTracked_eq]
  cases a.adaptText text with
  | error e => rfl
  | ok adaptedText => exact Tracker.restore_mapValues f t adaptedText

/-- One request: a function may be applied to the values before or after it, and the cache is the same. -/
theorem adapt_mapValues (a : Adapter) (s : Statement) (c : Cache) :
    a.adapt (s.mapValues f) c = ((a.adapt s c).1.map (Adapted.mapValues f), (a.adapt s c).2) := by
  rw [adapt, adapt, Tracker.linearize_mapValues]
  simp only
  cases c.get? (Tracker.linearize s).2 with
  | some t =>
    simp only [Template.bind_mapValues]
    cases t.bind (Tracker.linearize s).1 with
    | error e => rfl
    | ok bound => exact congrArg (fun out => (Except.ok out, c)) (asAdapted_mapValues f bound)
  | none =>
    simp only [Statement.isSelect_mapValues, adaptTracked_mapValues]
    split
    · cases a.adaptTracked (Tracker.linearize s).1 (Tracker.linearize s).2 with
      | error e => rfl
      | ok adapted =>
        show (Except.ok (asAdapted (adapted.mapValues f)), c.store _ (Template.ofStatement (adapted.mapValues f))) = _
        rw [asAdapted_mapValues, Template.ofStatement_mapValues]
        rfl
    · rfl

end Adapter

/-- The request with a function applied to every value of its statement. -/
def Request.mapValues : Request → Request
  | .adapt s => .adapt (s.mapValues f)
  | .clear => .clear

theorem Adapter.serve_mapValues (a : Adapter) (c : Cache) (r : Request) :
    a.serve c (r.mapValues f) = a.serve c r := by
  cases r with
  | adapt s =>
    show (a.adapt (s.mapValues f) c).2 = (a.adapt s c).2
    rw [Adapter.adapt_mapValues]
  | clear => rfl

/-- A session: its cache is the same for all values. -/
theorem Cache.serveAll_mapValues (c : Cache) (rs : List (Adapter × Request)) :
    c.serveAll (rs.map fun (a, r) => (a, r.mapValues f)) = c.serveAll rs := by
  induction rs generalizing c with
  | nil => rfl
  | cons ar rs ih =>
    obtain ⟨a, r⟩ := ar
    rw [List.map_cons, serveAll, serveAll, Adapter.serve_mapValues, ih]

/-- **Values are not looked at.**  For every function on values, every adapter, every statement and every cache, the
statement with the function applied to its values is answered with the same error, or with the same texts and ordinals
in the same order and the function applied to each value; the cache afterwards is the same.  So it is in a session:
if the function is applied to the values of all statements before, the cache is the one it would have been. -/
theorem blind_to_values (a : Adapter) (s : Statement) (c : Cache) (history : List (Adapter × Request)) :
    a.adapt (s.mapValues f) (c.serveAll history)
        = ((a.adapt s (c.serveAll history)).1.map (Adapted.mapValues f), (a.adapt s (c.serveAll history)).2) ∧
      (∀ out : Adapted,
        List.Forall₂ (Segment.Like fun p q => q = ⟨f p.value, p.ordinal⟩)
          out.statement.segments (out.mapValues f).statement.segments ∧
        List.Forall₂ (fun p q => q = ⟨f p.value, p.ordinal⟩) out.parameters (out.mapValues f).parameters) ∧
      c.serveAll (history.map fun (a, r) => (a, r.mapValues f)) = c.serveAll history := by
  refine ⟨Adapter.adapt_mapValues f a s _, fun out => ⟨?_, ?_⟩, Cache.serveAll_mapValues f c history⟩
  · exact Marked.forall₂_segments_map (Parameter.mapValue f) out.statement
  · show List.Forall₂ _ out.parameters (out.parameters.map (Parameter.mapValue f))
    rw [List.forall₂_map_right_iff, List.forall₂_same]
    exact fun _ _ => rfl

end JetAdapter
