import JetAdapter.Query.Edit

/-!
# Guarded runs

Where tokens are named by their numbers and places by their offsets, a step can go wrong in ways that lists do not
know: there may be no token of that number, a number may be taken from a smaller one, and a stretch may be no part of
its text.  A guarded run checks every such step before it is made, and stops with a `Breach` where it must not be
made.  Otherwise it stops only where the statement is refused.
-/

namespace JetAdapter

/-- A step that must not be made. -/
inductive Breach
  /-- There is no token of this number. -/
  | noToken (index : Nat)
  /-- There are no tokens from the first number up to the second. -/
  | noTokens (start stop : Nat)
  /-- More is taken away than there is. -/
  | belowZero (total taken : Nat)
  /-- The stretch ends before it starts, ends behind the text, or starts or ends inside a character. -/
  | noStretch (span : Span)
deriving DecidableEq, Repr

/-- Why a guarded run stops early. -/
inductive Halt
  | refused (e : SqlError)
  | breach (b : Breach)
deriving DecidableEq

/-- A run that may stop early. -/
abbrev Guarded (α : Type) := Except Halt α

namespace Guarded

variable {α : Type}

/-- A run without steps that have to be checked. -/
def lift (x : Except SqlError α) : Guarded α :=
  x.mapError .refused

/-- Stops because the statement is refused. -/
def refuse (e : SqlError) : Guarded α :=
  .error (.refused e)

/-- Stops before a step that must not be made. -/
def stop (b : Breach) : Guarded α :=
  .error (.breach b)

/-- The difference of two numbers. -/
def minus (total taken : Nat) : Guarded Nat :=
  if taken ≤ total then .ok (total - taken) else stop (.belowZero total taken)

/-- A stretch of a text. -/
def cutOut (text : SqlText) (span : Span) : Guarded SqlText :=
  if span.stop < span.start then stop (.noStretch span)
  else
    match Text.cutAt span.start text with
    | none => stop (.noStretch span)
    | some (_, fromStart) =>
      match Text.cutAt (span.stop - span.start) fromStart with
      | none => stop (.noStretch span)
      | some (found, _) => .ok found

/-- A text up to a place. -/
def cutTo (text : SqlText) (stop : Nat) : Guarded SqlText :=
  cutOut text ⟨0, stop⟩

/-- A text from a place on. -/
def cutFrom (text : SqlText) (start : Nat) : Guarded SqlText :=
  cutOut text ⟨start, Text.byteSize text⟩

/-- Whether no step is made that must not be made. -/
def Unbroken (x : Guarded α) : Prop :=
  ∀ b, x ≠ .error (.breach b)

end Guarded

end JetAdapter
