import JetAdapter.Adapter
import JetAdapter.Proofs.Tracker

/-!
# Adapters that share a cache

A session is a list of requests, each to one of the adapters that share a cache.  `Adaptation` lists what a
single request can do: answer from the cache, leave a statement alone, refuse it, or adapt it and keep its
template.  Only the last of these writes, so a property of entries that every newly kept template has
holds of all entries at any time (`Cache.Holds.serveAll`).
-/

namespace JetAdapter

/-- What is asked of an adapter. -/
inductive Request
  | adapt (s : Statement)
  | clear

/-- The cache after a request. -/
def Adapter.serve (a : Adapter) (c : Cache) : Request → Cache
  | .adapt s => (a.adapt s c).2
  | .clear => c.clear

/-- The cache after requests to adapters that share it, one after the other. -/
def Cache.serveAll (c : Cache) : List (Adapter × Request) → Cache
  | [] => c
  | (a, r) :: rs => (a.serve c r).serveAll rs

instance decidableEqExcept {ε α : Type} [DecidableEq ε] [DecidableEq α] :
    DecidableEq (Except ε α)
  | .ok a, .ok b => decidable_of_iff (a = b) ⟨congrArg _, Except.ok.inj⟩
  | .error a, .error b => decidable_of_iff (a = b) ⟨congrArg _, Except.error.inj⟩
  | .ok _, .error _ => .isFalse (by simp)
  | .error _, .ok _ => .isFalse (by simp)

/-! ### Entries -/

namespace Cache

theorem lookup_write (key k : SqlText) (t : Template) (entries : List (SqlText × Template)) :
    (write key t entries).lookup k = if k = key then some t else entries.lookup k := by
  induction entries with
  | nil =>
    by_cases hk : k = key
    · simp [write, hk]
    · have : (k == key) = false := by simpa using hk
      simp [write, List.lookup_cons, this, hk]
  | cons e entries ih =>
    obtain ⟨k', u⟩ := e
    by_cases hk' : k' = key
    · subst hk'
      by_cases hk : k = k'
      · simp [write, hk]
      · have : (k == k') = false := by simpa using hk
        simp [write, List.lookup_cons, this, hk]
    · rw [write, if_neg hk']
      by_cases hk : k = k'
      · subst hk
        simp [hk']
      · have : (k == k') = false := by simpa using hk
        simp [List.lookup_cons, this, ih]

/-- An entry after storing is the stored one or was there before. -/
theorem get?_store {c : Cache} {key k : SqlText} {t u : Template}
    (h : (c.store key t).get? k = some u) : k = key ∧ u = t ∨ c.get? k = some u := by
  rw [store] at h
  split at h
  · rw [get?, lookup_write] at h
    split at h
    · next hk => exact .inl ⟨hk, (Option.some.inj h).symm⟩
    · exact .inr h
  · exact .inr h

@[simp] theorem get?_empty (limit : Option Nat) (k : SqlText) : (empty limit).get? k = none := rfl

@[simp] theorem get?_clear (c : Cache) (k : SqlText) : c.clear.get? k = none := rfl

/-- Whether all entries have a property. -/
def Holds (P : SqlText → Template → Prop) (c : Cache) : Prop :=
  ∀ key t, c.get? key = some t → P key t

variable {P : SqlText → Template → Prop} {c : Cache}

theorem holds_empty (limit : Option Nat) : (empty limit).Holds P := by
  intro key t h
  cases h

theorem Holds.store {key : SqlText} {t : Template} (h : c.Holds P) (ht : P key t) :
    (c.store key t).Holds P := by
  intro k u hu
  rcases get?_store hu with ⟨rfl, rfl⟩ | hu
  · exact ht
  · exact h k u hu

end Cache

/-! ### One request -/

/-- What can come of adapting a statement with the help of a cache: the answer and the cache
afterwards. -/
inductive Adaptation (a : Adapter) (s : Statement) (c : Cache) :
    Except SqlError Adapted × Cache → Prop
  /-- There is a template, and it is bound or refuses the parameters. -/
  | hit (t : Template) (found : c.get? (Tracker.linearize s).2 = some t) :
      Adaptation a s c ((t.bind (Tracker.linearize s).1).map Adapter.asAdapted, c)
  /-- The statement is no `SELECT`. -/
  | untouched (missing : c.get? (Tracker.linearize s).2 = none) (other : s.isSelect = false) :
      Adaptation a s c (.ok ⟨s, (Tracker.linearize s).1.parameters⟩, c)
  /-- Adapting fails. -/
  | refused (missing : c.get? (Tracker.linearize s).2 = none) (select : s.isSelect = true)
      (e : SqlError)
      (failed : a.adaptTracked (Tracker.linearize s).1 (Tracker.linearize s).2 = .error e) :
      Adaptation a s c (.error e, c)
  /-- The statement is adapted and its template offered to the cache. -/
  | adapted (missing : c.get? (Tracker.linearize s).2 = none) (select : s.isSelect = true)
      (out : Statement)
      (done : a.adaptTracked (Tracker.linearize s).1 (Tracker.linearize s).2 = .ok out) :
      Adaptation a s c
        (.ok (Adapter.asAdapted out), c.store (Tracker.linearize s).2 (Template.ofStatement out))

theorem adaptation (a : Adapter) (s : Statement) (c : Cache) :
    Adaptation a s c (a.adapt s c) := by
  rw [Adapter.adapt]
  cases hk : c.get? (Tracker.linearize s).2 with
  | some t =>
    simp only [hk]
    exact .hit t hk
  | none =>
    simp only [hk]
    cases hs : s.isSelect with
    | false => exact .untouched hk hs
    | true =>
      cases ha : a.adaptTracked (Tracker.linearize s).1 (Tracker.linearize s).2 with
      | error e => exact .refused hk hs e ha
      | ok out => exact .adapted hk hs out ha

/-- Adapting a tracked text is adapting the text and restoring; the check adds nothing. -/
theorem Adapter.adaptTracked_eq (a : Adapter) (t : Tracker) (text : SqlText) :
    a.adaptTracked t text = a.adaptText text >>= t.restore := by
  rw [adaptTracked]
  cases a.adaptText text with
  | error e => rfl
  | ok adaptedText =>
    show (t.restore adaptedText >>= fun out => t.verify out >>= fun _ => pure out)
      = t.restore adaptedText
    cases hr : t.restore adaptedText with
    | error e => rfl
    | ok out =>
      show (t.verify out >>= fun _ => pure out) = .ok out
      rw [Tracker.verify_of_restore hr]
      rfl

theorem Adapter.eq_of_adaptTracked {a : Adapter} {t : Tracker} {text : SqlText} {out : Statement}
    (h : a.adaptTracked t text = .ok out) :
    ∃ adaptedText, a.adaptText text = .ok adaptedText ∧ t.restore adaptedText = .ok out := by
  rw [adaptTracked_eq] at h
  cases ht : a.adaptText text with
  | error e =>
    rw [ht] at h
    cases h
  | ok adaptedText =>
    rw [ht] at h
    exact ⟨adaptedText, rfl, h⟩

/-- What a `SELECT` is adapted to has been bound by a template or restored. -/
theorem Adapter.eq_of_adapt {a : Adapter} {s : Statement} {c : Cache} {out : Adapted}
    (hs : s.isSelect = true) (h : (a.adapt s c).1 = .ok out) : ∃ adapted, out = asAdapted adapted ∧
      ((∃ t, c.get? (Tracker.linearize s).2 = some t ∧
          t.bind (Tracker.linearize s).1 = .ok adapted) ∨
        ∃ text, (Tracker.linearize s).1.restore text = .ok adapted) := by
  have hstep := adaptation a s c
  generalize a.adapt s c = r at hstep h
  cases hstep with
  | hit t found =>
    cases hb : t.bind (Tracker.linearize s).1 with
    | error e =>
      rw [hb] at h
      cases h
    | ok bound =>
      rw [hb] at h
      cases h
      exact ⟨bound, rfl, .inl ⟨t, found, hb⟩⟩
  | untouched missing other =>
    rw [hs] at other
    cases other
  | refused missing select e failed => cases h
  | adapted missing select restored done =>
    cases h
    obtain ⟨text, -, hr⟩ := eq_of_adaptTracked done
    exact ⟨restored, rfl, .inr ⟨text, hr⟩⟩

/-! ### Invariants of entries -/

/-- What has to be shown of a template for a property of entries to last: that it holds when the template
of an adapted statement is kept. -/
def Adapter.Keeps (a : Adapter) (P : SqlText → Template → Prop) (s : Statement) : Prop :=
  ∀ out, s.isSelect = true →
    a.adaptTracked (Tracker.linearize s).1 (Tracker.linearize s).2 = .ok out →
    P (Tracker.linearize s).2 (Template.ofStatement out)

variable {P : SqlText → Template → Prop} {c : Cache}

theorem Cache.Holds.adapt {a : Adapter} {s : Statement} (h : c.Holds P) (hk : a.Keeps P s) :
    (a.adapt s c).2.Holds P := by
  have hstep := adaptation a s c
  generalize a.adapt s c = r at hstep
  cases hstep with
  | hit t found => exact h
  | untouched missing other => exact h
  | refused missing select e failed => exact h
  | adapted missing select out done => exact h.store (hk out select done)

theorem Cache.Holds.serve {a : Adapter} {r : Request} (h : c.Holds P)
    (hk : ∀ s, r = .adapt s → a.Keeps P s) : (a.serve c r).Holds P := by
  cases r with
  | adapt s => exact h.adapt (hk s rfl)
  | clear =>
    intro key t ht
    rw [Adapter.serve, Cache.get?_clear] at ht
    cases ht

/-- What every newly kept template has, all entries have at any time. -/
theorem Cache.Holds.serveAll {rs : List (Adapter × Request)} (h : c.Holds P)
    (hk : ∀ a s, (a, Request.adapt s) ∈ rs → a.Keeps P s) : (c.serveAll rs).Holds P := by
  induction rs generalizing c with
  | nil => exact h
  | cons ar rs ih =>
    obtain ⟨a, r⟩ := ar
    refine ih (h.serve ?_) ?_
    · rintro s rfl
      exact hk a s List.mem_cons_self
    · intro a' s hm
      exact hk a' s (List.mem_cons_of_mem _ hm)

end JetAdapter
