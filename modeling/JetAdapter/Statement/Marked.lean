import JetAdapter.Token.Lexeme

/-!
# Marked texts

Text with things of some type set into it: a text, a mark, a text, a mark and so on, up to a last text.
Statements hold parameters this way, templates hold slots, and the markers that a text spells out can be
cut out of it (`Marked.ofLexemes`).  Texts between marks may be empty, so each marked text has one form.
-/

namespace JetAdapter

/-- A text with marks of type `α` in it. -/
structure Marked (α : Type) where
  head : SqlText
  tail : List (α × SqlText)
deriving DecidableEq

/-- A piece of a marked text. -/
inductive Segment (α : Type)
  | text (t : SqlText)
  | mark (a : α)
deriving DecidableEq

namespace Marked

variable {α β : Type}

/-- The marks in order. -/
def marks (m : Marked α) : List α :=
  m.tail.map Prod.fst

/-- Writes each mark as a text. -/
def render (write : α → SqlText) (m : Marked α) : SqlText :=
  m.head ++ m.tail.flatMap fun (a, t) => write a ++ t

/-- The same texts with other marks; where marks are missing the text ends. -/
def withMarks (m : Marked α) (bs : List β) : Marked β :=
  ⟨m.head, List.zipWith (fun (_, t) b => (b, t)) m.tail bs⟩

/-- The same texts with each mark changed. -/
def map (f : α → β) (m : Marked α) : Marked β :=
  ⟨m.head, m.tail.map fun (a, t) => (f a, t)⟩

/-! ### Segments -/

/-- A text as a segment, unless it is empty. -/
def textSegment (t : SqlText) : List (Segment α) :=
  if t = [] then [] else [.text t]

/-- The pieces in order; empty texts are none. -/
def segments (m : Marked α) : List (Segment α) :=
  textSegment m.head ++ m.tail.flatMap fun (a, t) => .mark a :: textSegment t

/-- Puts a text in front. -/
def prepend (t : SqlText) (m : Marked α) : Marked α :=
  ⟨t ++ m.head, m.tail⟩

/-- Puts a mark in front. -/
def cons (a : α) (m : Marked α) : Marked α :=
  ⟨[], (a, m.head) :: m.tail⟩

/-- Puts pieces together; texts that meet become one. -/
def ofSegments : List (Segment α) → Marked α
  | [] => ⟨[], []⟩
  | .text t :: rest => (ofSegments rest).prepend t
  | .mark a :: rest => (ofSegments rest).cons a

/-! ### Markers in lexemes -/

/-- Cuts the lexemes that mark something out of a text. -/
def ofLexemes (mark? : Kind → Option α) : List Lexeme → Marked α
  | [] => ⟨[], []⟩
  | l :: ls =>
    match mark? l.kind with
    | some a => ((ofLexemes mark? ls).cons a).prepend l.gap
    | none => (ofLexemes mark? ls).prepend (l.gap ++ l.text)

end Marked

end JetAdapter
