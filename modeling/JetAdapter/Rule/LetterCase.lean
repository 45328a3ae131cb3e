import JetAdapter.Query.Edit

/-!
# Letter case functions

`upper` and `lower` are `ucase` and `lcase` in Jet.
-/

namespace JetAdapter.LetterCase

/-- The name in Jet of a function that changes the case of letters. -/
def jetName (t : Token) : SqlText :=
  let name := if t.spells "upper".toList then "ucase".toList else "lcase".toList
  if t.text.all Char.isUpper then Text.upper name else name

/-- Whether a token is the name of such a function. -/
def isName (t : Token) : Bool :=
  t.spells "upper".toList || t.spells "lower".toList

/-- Renames the calls of these functions; a name in capital letters stays in capital letters. -/
def rename (text : SqlText) : Except SqlError SqlText := do
  let q ← Query.ofText text
  Edit.applyAll ((q.calls isName).map fun c => ⟨c.name.span, jetName c.name⟩) text

end JetAdapter.LetterCase
