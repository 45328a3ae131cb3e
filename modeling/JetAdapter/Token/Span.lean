import JetAdapter.Token.Lexeme

/-!
# Places of lexemes

Places are counted in bytes from the start of the text.  `placed` adds to every lexeme where its spelling
starts; that follows from the sizes of the gaps and spellings before it.
-/

namespace JetAdapter

/-- A stretch of a text in bytes, from `start` up to but without `stop`. -/
structure Span where
  start : Nat
  stop : Nat
deriving DecidableEq, Repr

/-- A lexeme and the place where its spelling starts. -/
structure PlacedLexeme extends Lexeme where
  start : Nat
deriving DecidableEq

/-- The place behind the spelling. -/
def PlacedLexeme.stop (l : PlacedLexeme) : Nat :=
  l.start + Text.byteSize l.text

/-- The stretch of the spelling. -/
def PlacedLexeme.span (l : PlacedLexeme) : Span :=
  ⟨l.start, l.stop⟩

/-- Adds their places to lexemes whose first gap starts at `offset`. -/
def Lexeme.placedFrom (offset : Nat) : List Lexeme → List PlacedLexeme
  | [] => []
  | l :: ls =>
    let start := offset + Text.byteSize l.gap
    ⟨l, start⟩ :: placedFrom (start + Text.byteSize l.text) ls

/-- The lexemes of a text with their places. -/
def tokenize (t : SqlText) : List PlacedLexeme :=
  Lexeme.placedFrom 0 (lex t)

end JetAdapter
