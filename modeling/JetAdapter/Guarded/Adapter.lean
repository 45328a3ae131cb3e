import JetAdapter.Adapter
import JetAdapter.Dialect.Jet
import JetAdapter.Guarded.Join
import JetAdapter.Guarded.Rule

/-!
# Guarded adapting, restoring, splitting and limiting

What is done with whole texts: an adapter goes over one, parameters are set into one where its markers are, and the
words that limit the rows are put behind its first word or two.
-/

namespace JetAdapter.Guarded

/-- Applies the enabled rules one after the other, up to the first error. -/
def applyChain (chain : RuleChain) (text : SqlText) : Guarded SqlText :=
  chain.rules.foldlM (fun t r => applyRule r t) text

/-- Adapts the text of a statement. -/
def adaptText (a : Adapter) (text : SqlText) : Guarded SqlText := do
  applyChain a.chain (← nestAll (a.withoutMarker text))

/-- Sets things into a text in the place of stretches.  What comes next may depend on what was there before, which the
state tells; what is behind `last` is still to be gone over. -/
def fillFrom {σ α β : Type} (next : σ → α → Except SqlError (β × σ)) (text : SqlText) (last : Nat) (state : σ) :
    List (Span × α) → Guarded (Marked β)
  | [] => do return ⟨← cutFrom text last, []⟩
  | (span, a) :: places => do
    let (b, state) ← lift (next state a)
    let before ← cutOut text ⟨last, span.start⟩
    return ((← fillFrom next text span.stop state places).cons b).prepend before

/-- The parameter that a marker stands for behind so many markers with these ordinals: a `?` for the tracked one that
comes next, a name for the one with its ordinal, which may stand there only once. -/
def resolveNext (t : Tracker) (loss : SqlError) :
    Nat × List Nat → Marker → Except SqlError (Parameter × Nat × List Nat)
  | (index, seen), .positional =>
    match t.parameters[index]? with
    | some p => .ok (p, index + 1, seen)
    | none => .error loss
  | (index, seen), .named ordinal =>
    if ordinal ∈ seen then .error loss
    else
      match t.get? ordinal with
      | some p => .ok (p, index + 1, ordinal :: seen)
      | none => .error loss

/-- Puts the parameters back into a text where its markers are. -/
def restore (t : Tracker) (text : SqlText) : Guarded Statement := do
  let found := (← tokens text).filterMap fun l => (Marker.ofKind? l.kind).map (l.span, ·)
  let named := found.countP fun (_, m) => m.ordinal?.isSome
  let loss : SqlError := .parameterLoss t.size found.length
  if found.length ≠ t.size ∨ named ≠ 0 ∧ named ≠ found.length then refuse loss
  else fillFrom (resolveNext t loss) text 0 (0, []) found

/-- Binds values to the markers `?` of a text in order. -/
def parse (text : SqlText) (values : List SqlValue) : Guarded Statement := do
  let markers := ((← tokens text).filter fun l => l.kind = .placeholder).map PlacedLexeme.span
  if markers.length = values.length then
    fillFrom (fun _ v => .ok (⟨v, none⟩, ())) text 0 () (markers.zip values)
  else refuse (.parameterMismatch markers.length values.length)

/-- Where the words that limit the rows go. -/
def topPlace (text : SqlText) : Guarded Nat := do
  let select ← nextToken text 0
  if select.kind.isKeyword .SELECT then
    let next ← nextToken text select.stop
    if next.kind.isKeyword .DISTINCT then return next.stop else return select.stop
  else refuse (.unsupportedClause .notSelect)

/-- Limits the rows of a query that starts at its first row. -/
def limitString (text : SqlText) (offset rows : UInt64) : Guarded SqlText :=
  if offset > 0 then refuse (.unsupportedClause .offset)
  else do
    let place ← topPlace text
    return (← cutTo text place) ++ topText rows ++ (← cutFrom text place)

end JetAdapter.Guarded
