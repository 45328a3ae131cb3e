import JetAdapter.Guarded.Basic
import JetAdapter.Proofs.EditSets
import Mathlib.Data.List.Forall2

/-!
# Guards

A guard lets a step pass if it can be made.  A stretch of a text is cut out where it is the middle of three parts of
the text (`cutOut_append`), and a number can be taken from one that is not smaller (`minus_eq`).  Where every step of a
loop over numbers passes, the loop answers what the same loop without guards does.
-/

namespace JetAdapter.Guarded

variable {α β γ : Type}

@[simp] theorem ok_bind {ε : Type} (a : α) (f : α → Except ε β) : (Except.ok a >>= f) = f a := rfl

@[simp] theorem pure_eq_ok {ε : Type} (a : α) : (pure a : Except ε α) = .ok a := rfl

@[simp] theorem map_ok (f : α → β) (a : α) : Except.map f (.ok a : Guarded α) = .ok (f a) := rfl

@[simp] theorem lift_ok (a : α) : lift (.ok a) = .ok a := rfl

@[simp] theorem lift_error (e : SqlError) : lift (.error e : Except SqlError α) = refuse e := rfl

theorem lift_bind (x : Except SqlError α) (f : α → Except SqlError β) :
    lift (x >>= f) = lift x >>= fun a => lift (f a) := by
  cases x <;> rfl

theorem lift_map (x : Except SqlError α) (f : α → β) : lift (x.map f) = (lift x).map f := by
  cases x <;> rfl

/-- A run without guards meets none. -/
theorem unbroken_lift (x : Except SqlError α) : Unbroken (lift x) := by
  intro b h
  cases x <;> cases h

/-! ### Numbers and stretches -/

theorem minus_eq {total taken : Nat} (h : taken ≤ total) : minus total taken = .ok (total - taken) :=
  if_pos h

variable {text before found after : SqlText} {span : Span}

/-- The middle of three parts of a text is cut out. -/
theorem cutOut_append (htext : text = before ++ (found ++ after)) (hstart : span.start = Text.byteSize before)
    (hstop : span.stop = Text.byteSize (before ++ found)) : cutOut text span = .ok found := by
  have hle : ¬ span.stop < span.start := by
    rw [hstart, hstop, Text.byteSize_append]
    omega
  have hsize : span.stop - span.start = Text.byteSize found := by
    rw [hstart, hstop, Text.byteSize_append]
    omega
  rw [cutOut, if_neg hle, hstart, htext, Text.cutAt_append]
  simp only
  rw [← hstart, hsize, Text.cutAt_append]

theorem cutTo_append (htext : text = found ++ after) {stop : Nat} (hstop : stop = Text.byteSize found) :
    cutTo text stop = .ok found :=
  cutOut_append (show text = [] ++ (found ++ after) from htext) rfl hstop

theorem cutFrom_append (htext : text = before ++ found) {start : Nat} (hstart : start = Text.byteSize before) :
    cutFrom text start = .ok found :=
  have hwhole : text = before ++ (found ++ []) := by rw [htext, List.append_nil]
  cutOut_append hwhole hstart (by rw [htext])

/-! ### Loops -/

variable {is : List Nat}

theorem findM?_eq {f : Nat → Guarded Bool} {p : Nat → Bool} (h : ∀ i ∈ is, f i = .ok (p i)) :
    is.findM? f = .ok (is.find? p) := by
  induction is with
  | nil => rfl
  | cons i is ih =>
    rw [List.findM?, h i List.mem_cons_self, ok_bind, List.find?_cons]
    cases p i with
    | true => rfl
    | false => exact ih fun j hj => h j (List.mem_cons_of_mem _ hj)

theorem findSomeM?_eq {f : Nat → Guarded (Option α)} {g : Nat → Option α} (h : ∀ i ∈ is, f i = .ok (g i)) :
    is.findSomeM? f = .ok (is.findSome? g) := by
  induction is with
  | nil => rfl
  | cons i is ih =>
    rw [List.findSomeM?, h i List.mem_cons_self, ok_bind, List.findSome?_cons]
    cases g i with
    | some a => rfl
    | none => exact ih fun j hj => h j (List.mem_cons_of_mem _ hj)

theorem mapM_eq {f : Nat → Guarded α} {g : Nat → α} (h : ∀ i ∈ is, f i = .ok (g i)) : is.mapM f = .ok (is.map g) := by
  induction is with
  | nil => rfl
  | cons i is ih =>
    rw [List.mapM_cons, h i List.mem_cons_self, ok_bind, ih fun j hj => h j (List.mem_cons_of_mem _ hj)]
    rfl

/-- A loop that makes something of some numbers, and may refuse to. -/
theorem filterMapM_eq {f : Nat → Guarded (Option β)} {g : Nat → Option α} {k : α → Except SqlError β}
    (h : ∀ i ∈ is, f i = (g i).elim (.ok none) fun a => (lift (k a)).map some) :
    is.filterMapM f = lift ((is.filterMap g).mapM k) := by
  induction is with
  | nil => rfl
  | cons i is ih =>
    have hrest := ih fun j hj => h j (List.mem_cons_of_mem _ hj)
    rw [List.filterMapM_cons, h i List.mem_cons_self, List.filterMap_cons]
    cases g i with
    | none => exact hrest
    | some a =>
      simp only [List.mapM_cons, lift_bind, hrest, Option.elim_some]
      cases k a with
      | error e => rfl
      | ok b => rfl

/-! ### Loops over related lists -/

variable {R : α → β → Prop} {as : List α} {bs : List β}

theorem filterMapM_forall₂ {f : α → Guarded (Option γ)} {g : β → Option γ} (h : List.Forall₂ R as bs)
    (hf : ∀ a b, R a b → f a = .ok (g b)) : as.filterMapM f = .ok (bs.filterMap g) := by
  induction h with
  | nil => rfl
  | @cons a b as bs hab _ ih =>
    rw [List.filterMapM_cons, hf a b hab, ih, List.filterMap_cons]
    cases g b <;> rfl

theorem mapM_forall₂ {f : α → Guarded γ} {g : β → Except SqlError γ} (h : List.Forall₂ R as bs)
    (hf : ∀ a b, R a b → f a = lift (g b)) : as.mapM f = lift (bs.mapM g) := by
  induction h with
  | nil => rfl
  | @cons a b as bs hab _ ih =>
    simp only [List.mapM_cons, lift_bind, hf a b hab, ih]
    rfl

end JetAdapter.Guarded
