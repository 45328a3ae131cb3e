import JetAdapter.Join.Chain
import JetAdapter.Query.Edit
import JetAdapter.Query.Scope

/-!
# Nested joins

Jet takes joins two at a time, so a chain of joins has to be nested to the left:
`A join B on .. join C on ..` becomes `(A join B on ..) join C on ..`.  Where a `FROM` clause has several
blocks between commas, every block with a join becomes a table of its own,
`(select * from A join B on ..) as alias0`, numbered by its place among the blocks.
-/

namespace JetAdapter.JoinChain

/-- The edits that nest one block and, where there are more blocks, make it a table of its own. -/
def blockEdits (wrapped : Bool) (index : Nat) (block : List Token) (chain : JoinChain) : List Edit :=
  let start := Token.startOr 0 block
  let stop := Token.stopOr 0 block
  if chain.links = [] then []
  else
    (if wrapped then [Edit.insert start "(select * from ".toList] else [])
      ++ (if chain.links.length > 1 then
          Edit.insert start (List.replicate (chain.links.length - 1) '(')
            :: chain.links.dropLast.map fun link => Edit.insert (Token.stopOr 0 link.operand) [')']
        else [])
      ++ (if wrapped then
          [Edit.insert stop (") as alias".toList ++ Decimal.natText index)]
        else [])

/-- The edits of blocks that are numbered from `index` on. -/
def blocksEdits (depth : Nat) (wrapped : Bool) (index : Nat) :
    List Token.Piece → Except SqlError (List Edit)
  | [] => .ok []
  | block :: blocks => do
    if block.tokens = [] then
      .error (.syntaxError .emptyTableExpression ⟨block.stop, block.stop⟩)
    else
      let chain ← ofBlock depth block.tokens
      return blockEdits wrapped index block.tokens chain
        ++ (← blocksEdits depth wrapped (index + 1) blocks)

/-- The edits that nest the joins of a `FROM` clause of a depth; `stop` is the place of what ends the
clause. -/
def clauseEdits (depth stop : Nat) (clause : List Token) : Except SqlError (List Edit) :=
  let blocks := Token.pieces depth stop clause
  blocksEdits depth (blocks.length > 1) 0 blocks

/-- Nests the joins of a text that is the body of a `FROM` clause. -/
def nestClause (text : SqlText) : Except SqlError SqlText := do
  let q ← Query.ofText text
  Edit.applyAll (← clauseEdits 0 q.stop q.tokens) text

/-- The edits that nest the joins of every `FROM` clause of some scopes. -/
def scopesEdits : List Scope → Except SqlError (List Edit)
  | [] => .ok []
  | scope :: scopes => do
    let edits ←
      match scope.clause? .tables with
      | none => .ok []
      | some clause => clauseEdits scope.depth clause.stop clause.body
    return edits ++ (← scopesEdits scopes)

/-- Nests the joins of every `FROM` clause of a text.  Texts with a `UNION` stay as they are. -/
def nestAll (text : SqlText) : Except SqlError SqlText := do
  let q ← Query.ofText text
  if q.tokens.any fun t => t.isKeyword .UNION then return text
  else Edit.applyAll (← scopesEdits q.scopes) text

end JetAdapter.JoinChain
