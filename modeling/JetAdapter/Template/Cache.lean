import JetAdapter.Template.Basic

/-!
# Caches

A cache keeps templates by the linearized text of the statements that they were made of.  Nothing leaves
it but by `Cache.clear`; a cache with a limit takes no more entries once it is full.
-/

namespace JetAdapter

/-- Templates by text, and how many there may be. -/
structure Cache where
  entries : List (SqlText × Template)
  limit : Option Nat
deriving DecidableEq

namespace Cache

/-- A cache without entries. -/
def empty (limit : Option Nat) : Cache :=
  ⟨[], limit⟩

/-- The number of entries. -/
def size (c : Cache) : Nat :=
  c.entries.length

/-- The template kept under a text. -/
def get? (c : Cache) (key : SqlText) : Option Template :=
  c.entries.lookup key

/-- Whether an entry under a text may be written: there is one already, or there is room. -/
def takes (c : Cache) (key : SqlText) : Bool :=
  (c.get? key).isSome || c.limit.all fun n => c.size < n

/-- Puts a template in the place of the one kept under the same text, or behind all others. -/
def write (key : SqlText) (t : Template) : List (SqlText × Template) → List (SqlText × Template)
  | [] => [(key, t)]
  | (k, u) :: rest => if k = key then (key, t) :: rest else (k, u) :: write key t rest

/-- Keeps a template under a text, if the cache takes it. -/
def store (c : Cache) (key : SqlText) (t : Template) : Cache :=
  if c.takes key then { c with entries := write key t c.entries } else c

/-- Drops every entry. -/
def clear (c : Cache) : Cache :=
  { c with entries := [] }

end Cache

end JetAdapter
