import JetAdapter.Guarded.Table

/-!
# Guarded edits

A set of edits is applied with a cursor that goes along the text: what stands between the cursor and the next edit is
kept, and the cursor goes to the end of the edit.  A single edit puts its text in the place of its stretch.
-/

namespace JetAdapter.Guarded

/-- Applies edits in the order of their starts to a text from the cursor on. -/
def applyFrom (text : SqlText) (cursor : Nat) : List Edit → Guarded SqlText
  | [] => cutFrom text cursor
  | e :: es =>
    if e.span.start < cursor then refuse (.syntaxError .overlappingEdits e.span)
    else do
      let kept ← cutOut text ⟨cursor, e.span.start⟩
      return kept ++ e.text ++ (← applyFrom text e.span.stop es)

/-- Applies a set of edits to a text. -/
def applyAll (es : List Edit) (text : SqlText) : Guarded SqlText :=
  if es = [] then return text else applyFrom text 0 (Edit.sorted es)

/-- Puts the text of an edit in the place of its stretch. -/
def replace (e : Edit) (text : SqlText) : Guarded SqlText := do
  let before ← cutTo text e.span.start
  let _ ← cutOut text e.span
  return before ++ e.text ++ (← cutFrom text e.span.stop)

/-- Applies a step to a text until the step finds nothing to do, at most `rounds` times. -/
def repeatStep (step : TokenTable → Guarded (Option Edit)) : Nat → SqlText → Guarded SqlText
  | 0, text => return text
  | rounds + 1, text => do
    match ← step (← TokenTable.ofText text) with
    | none => return text
    | some e => repeatStep step rounds (← replace e text)

/-- Applies a step to a text until the step finds nothing to do. -/
def exhaust (step : TokenTable → Guarded (Option Edit)) (text : SqlText) : Guarded SqlText :=
  repeatStep step (text.length + 1) text

end JetAdapter.Guarded
