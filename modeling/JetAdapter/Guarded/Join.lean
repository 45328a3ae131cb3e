import JetAdapter.Guarded.Edit
import JetAdapter.Join.Nesting

/-!
# Guarded nesting of joins

The operators of a block are found by going over its tokens once: at a `JOIN` the words before it are looked at, and
at a `FULL` or `CROSS` the words behind it.  The operands between them are checked afterwards.
-/

namespace JetAdapter.Guarded

variable (T : TokenTable)

/-- An operator: its first word, and its `JOIN`. -/
structure JoinOperator where
  start : Nat
  join : Nat

/-- Whether a `JOIN` stands before `stop` at a number, or behind an `OUTER` there. -/
def joinFollows (i stop : Nat) : Bool :=
  let join := if T.isKeyword i .OUTER then i + 1 else i
  join < stop && T.isKeyword join .JOIN

/-- The first word of the operator with this `JOIN` in a block with this start. -/
def operatorStart (blockStart join : Nat) : Guarded Nat :=
  if join = blockStart then return join
  else do
    let before ← minus join 1
    if T.isKeyword before .INNER || T.isKeyword before .LEFT || T.isKeyword before .RIGHT then return before
    else if T.isKeyword before .OUTER then
      let withoutSide : Guarded Nat := do
        refuse (.syntaxError .outerWithoutSide (← T.spanTo before before))
      if blockStart < before then
        let side ← minus before 1
        if T.isKeyword side .LEFT || T.isKeyword side .RIGHT then return side else withoutSide
      else withoutSide
    else return join

/-- The operators of a depth in a block.  The tokens that are still to be looked at have these numbers. -/
def operators (depth : Nat) (block : TokenRange) : List Nat → Guarded (List JoinOperator)
  | [] => return []
  | i :: is => do
    if (← T.token i).depth ≠ depth then operators depth block is
    else if (T.isKeyword i .FULL || T.isKeyword i .CROSS) && joinFollows T (i + 1) block.stop then
      let side ← T.spelling i
      refuse (.syntaxError (.joinUnknownToJet (Text.upper side)) (← T.spanTo i i))
    else if T.isKeyword i .JOIN then
      let start ← operatorStart T block.start i
      if start = block.start then refuse (.syntaxError .joinWithoutLeftOperand (← T.spanTo i i))
      else return ⟨start, i⟩ :: (← operators depth block is)
    else operators depth block is

/-- Where the operand of an operator ends: before the next operator, or with the block. -/
def operandStop (blockStop : Nat) : List JoinOperator → Nat
  | [] => blockStop
  | next :: _ => next.start

/-- Checks that what follows each `JOIN` is a table, an `ON` and a condition. -/
def checkOperands (depth blockStop : Nat) : List JoinOperator → Guarded Unit
  | [] => return ()
  | op :: ops => do
    let table := op.join + 1
    let stop := operandStop blockStop ops
    if stop ≤ table ∨ T.isKeyword table .ON then
      refuse (.syntaxError .joinWithoutTable (← T.spanTo op.join op.join))
    else
      match ← T.findKeyword ⟨table, stop⟩ depth .ON with
      | none => refuse (.syntaxError .joinWithoutOn (← T.spanTo op.join op.join))
      | some on =>
        if stop ≤ on + 1 then refuse (.syntaxError .emptyOn (← T.spanTo on on))
        else checkOperands depth blockStop ops

/-- The operators of a block, with operands that are in order. -/
def findJoins (depth : Nat) (block : TokenRange) : Guarded (List JoinOperator) := do
  let ops ← operators T depth block block.indices
  checkOperands T depth block.stop ops
  return ops

/-- The closing parenthesis in front of an operator. -/
def closingBefore (op : JoinOperator) : Guarded Edit := do
  return Edit.insert (← T.token (← minus op.start 1)).stop [')']

/-- The edits of a block with this stretch and these operators.  The text of a block with joins is looked at for a
trace of the run. -/
def nestEdits (wrapped : Bool) (index : Nat) (span : Span) : List JoinOperator → Guarded (List Edit)
  | [] => return []
  | _ :: ops => do
    let _ ← cutOut T.text span
    let closings ← ops.mapM (closingBefore T)
    return (if wrapped then [Edit.insert span.start "(select * from ".toList] else [])
      ++ (if ops = [] then [] else Edit.insert span.start (List.replicate ops.length '(') :: closings)
      ++ (if wrapped then [Edit.insert span.stop (") as alias".toList ++ Decimal.natText index)] else [])

/-- The edits of blocks that are numbered from `index` on. -/
def blocksEdits (depth : Nat) (wrapped : Bool) (index : Nat) : List TokenRange → Guarded (List Edit)
  | [] => return []
  | block :: blocks => do
    match ← T.rangeSpan block with
    | none =>
      let place := (← T.token (min block.start (← T.eof))).start
      refuse (.syntaxError .emptyTableExpression ⟨place, place⟩)
    | some span =>
      let ops ← findJoins T depth block
      let edits ← nestEdits T wrapped index span ops
      return edits ++ (← blocksEdits depth wrapped (index + 1) blocks)

/-- The edits that nest the joins of a `FROM` clause of a depth. -/
def clauseEdits (depth : Nat) (clause : TokenRange) : Guarded (List Edit) := do
  let blocks ← T.splitCommas clause depth
  blocksEdits T depth (blocks.length > 1) 0 blocks

/-- Nests the joins of a text that is the body of a `FROM` clause. -/
def nestClause (text : SqlText) : Guarded SqlText := do
  let T ← TokenTable.ofText text
  applyAll (← clauseEdits T 0 ⟨0, ← T.eof⟩) text

/-- The edits that nest the joins of the `FROM` clause of a scope. -/
def tablesEdits (scope : TableScope) : Guarded (List Edit) :=
  match scope.clause? .tables with
  | none => return []
  | some clause => clauseEdits T scope.depth clause

/-- Nests the joins of every `FROM` clause of a text.  Texts with a `UNION` stay as they are. -/
def nestAll (text : SqlText) : Guarded SqlText := do
  let T ← TokenTable.ofText text
  if T.tokens.any fun t => t.isKeyword .UNION then return text
  else applyAll (← (← T.scopes).mapM (tablesEdits T)).flatten text

end JetAdapter.Guarded
