import JetAdapter.Proofs.Stretches

/-!
# Steps that are repeated

A step is repeated until it finds nothing to do, at most as many times as the text has characters, and once
more.  What every change keeps is kept by all of them (`Query.exhaust_induction`).  If every change makes
something smaller that is at most the length of the text (`Query.Shrinks`), the rounds suffice: in the end the step looks at the
text and finds nothing to do (`Query.Shrinks.exhaust_eq_ok`).
-/

namespace JetAdapter.Query

variable {step : Query → Except SqlError (Option Edit)} {text out : SqlText} {n : Nat}

/-- A round ends with a text that has nothing left to do, or changes the text and goes on. -/
theorem repeatStep_succ (h : repeatStep step (n + 1) text = .ok out) :
    ∃ q found, ofText text = .ok q ∧ step q = .ok found ∧ (found = none ∧ out = text ∨
      ∃ e u, found = some e ∧ Edit.applyAll [e] text = .ok u ∧ repeatStep step n u = .ok out) := by
  rw [repeatStep] at h
  obtain ⟨q, hq, h⟩ := Except.bind_eq_ok h
  obtain ⟨found, hfound, h⟩ := Except.bind_eq_ok h
  refine ⟨q, found, hq, hfound, ?_⟩
  cases found with
  | none =>
    cases h
    exact .inl ⟨rfl, rfl⟩
  | some e =>
    obtain ⟨u, hu, h⟩ := Except.bind_eq_ok h
    exact .inr ⟨e, u, rfl, hu, h⟩

/-- A text that a step is repeated on can be read. -/
theorem exists_of_exhaust (h : exhaust step text = .ok out) : ∃ q, ofText text = .ok q := by
  obtain ⟨q, -, hq, -⟩ := repeatStep_succ h
  exact ⟨q, hq⟩

/-- A step that finds nothing to do leaves the text alone. -/
theorem exhaust_of_step_eq_none {q : Query} (hq : ofText text = .ok q) (h : step q = .ok none) :
    exhaust step text = .ok text := by
  rw [exhaust, repeatStep, hq]
  show (step q >>= fun _ => _) = _
  rw [h]
  rfl

/-- What every change of a text keeps is kept by a step that is repeated. -/
theorem exhaust_induction {P : SqlText → Prop}
    (hstep : ∀ {t u : SqlText} {q : Query} {e : Edit}, ofText t = .ok q → step q = .ok (some e) →
      Edit.applyAll [e] t = .ok u → P t → P u)
    (h : exhaust step text = .ok out) (ht : P text) : P out := by
  have hrounds : ∀ {n : Nat} {t : SqlText}, repeatStep step n t = .ok out → P t → P out := by
    intro n
    induction n with
    | zero =>
      intro t h ht
      cases h
      exact ht
    | succ n ih =>
      intro t h ht
      obtain ⟨q, found, hq, hfound, ⟨-, rfl⟩ | ⟨e, u, rfl, hu, h⟩⟩ := repeatStep_succ h
      · exact ht
      · exact ih h (hstep hq hfound hu ht)
  exact hrounds h ht

/-- A step that finds nothing to do, changes a text into one of the same kind, or refuses it. -/
theorem exhaust_cases {P : SqlText → Prop} {Q : SqlError → Prop}
    (hstep : ∀ {t : SqlText}, P t → ∃ q, ofText t = .ok q ∧ (step q = .ok none ∨
      (∃ e u, step q = .ok (some e) ∧ Edit.applyAll [e] t = .ok u ∧ P u) ∨ ∃ err, step q = .error err ∧ Q err))
    (ht : P text) : (∃ out, exhaust step text = .ok out ∧ P out) ∨ ∃ err, exhaust step text = .error err ∧ Q err := by
  have hrounds : ∀ {n : Nat} {t : SqlText}, P t →
      (∃ out, repeatStep step n t = .ok out ∧ P out) ∨ ∃ err, repeatStep step n t = .error err ∧ Q err := by
    intro n
    induction n with
    | zero => exact fun {t} ht => .inl ⟨t, rfl, ht⟩
    | succ n ih =>
      intro t ht
      obtain ⟨q, hq, hnone | ⟨e, u, he, hu, hP⟩ | ⟨err, he, hQ⟩⟩ := hstep ht
      · exact .inl ⟨t, by rw [repeatStep, hq]; show (step q >>= _) = _; rw [hnone]; rfl, ht⟩
      · have hrest : repeatStep step (n + 1) t = repeatStep step n u := by
          rw [repeatStep, hq]
          show (step q >>= _) = _
          rw [he]
          show (Edit.applyAll [e] t >>= _) = _
          rw [hu]
          rfl
        rw [hrest]
        exact ih hP
      · exact .inr ⟨err, by rw [repeatStep, hq]; show (step q >>= _) = _; rw [he]; rfl, hQ⟩
  exact hrounds ht

/-- Whether every change that leaves a sound text makes a size smaller that is at most the length of the text. -/
structure Shrinks (step : Query → Except SqlError (Option Edit)) (size : SqlText → Nat) : Prop where
  le : ∀ t : SqlText, size t ≤ t.length
  less : ∀ {t u : SqlText} {q q' : Query} {e : Edit}, ofText t = .ok q → step q = .ok (some e) →
    Edit.applyAll [e] t = .ok u → ofText u = .ok q' → size u < size t
  pos : ∀ {t : SqlText} {q : Query} {e : Edit}, ofText t = .ok q → step q = .ok (some e) → 0 < size t

/-- If every change makes a size smaller, the last round finds nothing to do. -/
theorem Shrinks.exhaust_eq_ok {size : SqlText → Nat} (hs : Shrinks step size)
    (h : exhaust step text = .ok out) : ∃ q, ofText out = .ok q ∧ step q = .ok none := by
  have hrounds : ∀ {n : Nat} {t : SqlText}, (∀ q, ofText t = .ok q → size t < n) → 0 < n →
      repeatStep step n t = .ok out → ∃ q, ofText out = .ok q ∧ step q = .ok none := by
    intro n
    induction n with
    | zero => exact fun _ hn => absurd hn (Nat.lt_irrefl 0)
    | succ n ih =>
      intro t hlt _ h
      obtain ⟨q, found, hq, hfound, ⟨rfl, rfl⟩ | ⟨e, u, rfl, hu, h⟩⟩ := repeatStep_succ h
      · exact ⟨q, hq, hfound⟩
      · have hpos := hs.pos hq hfound
        have hlt := hlt q hq
        refine ih (fun q' hq' => ?_) (by omega) h
        have := hs.less hq hfound hu hq'
        omega
  exact hrounds (fun _ _ => Nat.lt_succ_of_le (hs.le text)) (Nat.succ_pos _) h

end JetAdapter.Query
