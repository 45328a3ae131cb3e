import JetAdapter.Proofs.JoinGrammar

/-!
# Refusals

What a computation can be refused with.  `Refuses P` says that every error of a computation has a property; it
goes through the ways in which computations are put together.  Reading a query and taking the joins of a clause apart
are refused for the syntax only.
-/

namespace JetAdapter

/-- Whether every error of a computation has a property. -/
def Refuses {α : Type} (P : SqlError → Prop) (x : Except SqlError α) : Prop :=
  ∀ e, x = .error e → P e

/-- Whether an error is one of syntax. -/
def SqlError.IsSyntax (e : SqlError) : Prop :=
  ∃ fault span, e = .syntaxError fault span

namespace Refuses

variable {α β : Type} {P Q : SqlError → Prop} {x : Except SqlError α} {f : α → Except SqlError β} {xs : List α}

theorem ok (a : α) : Refuses P (.ok a) := nofun

theorem error {e : SqlError} (h : P e) : Refuses P (.error e : Except SqlError α) := by
  rintro _ ⟨⟩
  exact h

theorem mono (h : Refuses P x) (hPQ : ∀ e, P e → Q e) : Refuses Q x :=
  fun e he => hPQ e (h e he)

theorem bind (hx : Refuses P x) (hf : ∀ a, x = .ok a → Refuses P (f a)) : Refuses P (x >>= f) := by
  intro e he
  cases hx' : x with
  | error e' =>
    rw [hx'] at he
    cases he
    exact hx e hx'
  | ok a =>
    rw [hx'] at he
    exact hf a hx' e he

theorem map (hx : Refuses P x) (g : α → β) : Refuses P (x.map g) := by
  intro e he
  cases hx' : x with
  | error e' =>
    rw [hx'] at he
    cases he
    exact hx e hx'
  | ok a =>
    rw [hx'] at he
    cases he

theorem mapM (h : ∀ a ∈ xs, Refuses P (f a)) : Refuses P (xs.mapM f) := by
  induction xs with
  | nil => exact ok _
  | cons a xs ih =>
    obtain ⟨ha, hxs⟩ := List.forall_mem_cons.1 h
    rw [List.mapM_cons]
    exact bind ha fun b _ => bind (ih hxs) fun bs _ => ok _

theorem forM {g : α → Except SqlError Unit} (h : ∀ a ∈ xs, Refuses P (g a)) : Refuses P (xs.forM g) := by
  induction xs with
  | nil => exact ok _
  | cons a xs ih =>
    obtain ⟨ha, hxs⟩ := List.forall_mem_cons.1 h
    exact bind ha fun _ _ => ih hxs

end Refuses

open SqlError (IsSyntax)

/-! ### Queries -/

namespace Query

theorem refuses_nest (d : Nat) (ls : List PlacedLexeme) : Refuses IsSyntax (nest d ls) := by
  induction ls generalizing d with
  | nil => exact .ok _
  | cons l ls ih =>
    rw [nest.eq_def]
    simp only
    split
    · exact .error ⟨_, _, rfl⟩
    · split
      · exact .ok _
      · exact .error ⟨_, _, rfl⟩
    · exact (ih _).map _
    · split
      · exact .error ⟨_, _, rfl⟩
      · exact (ih _).map _
    · exact (ih _).map _

theorem refuses_ofText (text : SqlText) : Refuses IsSyntax (ofText text) :=
  (refuses_nest 0 _).map _

end Query

/-! ### Joins -/

namespace JoinChain

theorem refuses_dropOperator (part : List Token) : Refuses IsSyntax (dropOperator part) :=
  fun _ he => (not_isOperator_of_dropOperator he).1

theorem refuses_dropOperators (link : JoinLink) (others : List JoinLink) :
    Refuses IsSyntax (dropOperators link others) := by
  induction others generalizing link with
  | nil => exact .ok _
  | cons next others ih =>
    rw [dropOperators]
    exact (refuses_dropOperator _).bind fun _ _ => (ih next).bind fun _ _ => .ok _

theorem refuses_checkLink (depth : Nat) (link : JoinLink) : Refuses IsSyntax (checkLink depth link) := by
  unfold checkLink
  split
  · exact .error ⟨_, _, rfl⟩
  · split
    · exact .error ⟨_, _, rfl⟩
    · exact .error ⟨_, _, rfl⟩
    · exact .ok _

theorem refuses_ofBlock (depth : Nat) (block : List Token) : Refuses IsSyntax (ofBlock depth block) := by
  unfold ofBlock
  split
  · exact .ok _
  · refine (refuses_dropOperator _).bind fun head _ => ?_
    split
    · exact .error ⟨_, _, rfl⟩
    · refine (refuses_dropOperators _ _).bind fun links _ => ?_
      exact Refuses.bind (.forM fun link _ => refuses_checkLink depth link) fun _ _ => .ok _

theorem refuses_blocksEdits (depth : Nat) (isWrapped : Bool) (index : Nat) (blocks : List Token.Piece) :
    Refuses IsSyntax (blocksEdits depth isWrapped index blocks) := by
  induction blocks generalizing index with
  | nil => exact .ok _
  | cons block blocks ih =>
    rw [blocksEdits]
    split
    · exact .error ⟨_, _, rfl⟩
    · exact (refuses_ofBlock _ _).bind fun _ _ => (ih _).bind fun _ _ => .ok _

theorem refuses_clauseEdits (depth stop : Nat) (clause : List Token) :
    Refuses IsSyntax (clauseEdits depth stop clause) :=
  refuses_blocksEdits _ _ _ _

theorem refuses_scopesEdits (scopes : List Scope) : Refuses IsSyntax (scopesEdits scopes) := by
  induction scopes with
  | nil => exact .ok _
  | cons scope scopes ih =>
    rw [scopesEdits]
    split
    · exact ih.bind fun _ _ => .ok _
    · exact (refuses_clauseEdits _ _ _).bind fun _ _ => ih.bind fun _ _ => .ok _

end JoinChain

end JetAdapter
