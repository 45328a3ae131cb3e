import JetAdapter.Query.Basic

/-!
# Join chains

A block of a `FROM` clause without commas is a chain `T J T' ON C J T'' ON C' …` of joins at one depth.
`JoinChain.ofBlock` takes a block apart and refuses it where it is no such chain.  The operators themselves
are `JOIN`, `INNER JOIN`, and `LEFT` or `RIGHT` with or without `OUTER`.
-/

namespace JetAdapter

/-- A further member of a chain: its `JOIN`, and the table with its condition. -/
structure JoinLink where
  join : Token
  operand : List Token
deriving DecidableEq

/-- A block as a chain of joins. -/
structure JoinChain where
  head : List Token
  links : List JoinLink
deriving DecidableEq

namespace JoinChain

/-- Cuts a block at its `JOIN`s; each further part comes with the `JOIN` before it. -/
def cut (depth : Nat) : List Token → List Token × List JoinLink
  | [] => ([], [])
  | t :: ts =>
    let (front, links) := cut depth ts
    if t.isKeywordAt depth .JOIN then ([], ⟨t, front⟩ :: links) else (t :: front, links)

/-- The error at a token that makes a join of a side that Jet does not know. -/
def unknownSide (t : Token) : SqlError :=
  .syntaxError (.joinUnknownToJet (Text.upper t.text)) t.span

/-- Drops the words of an operator from the end of what stands before a `JOIN`. -/
def dropOperator (part : List Token) : Except SqlError (List Token) :=
  match part.reverse with
  | [] => .ok part
  | last :: before =>
    match last.kind.keyword? with
    | some .FULL | some .CROSS => .error (unknownSide last)
    | some .INNER | some .LEFT | some .RIGHT => .ok before.reverse
    | some .OUTER =>
      match before with
      | [] => .error (.syntaxError .outerWithoutSide last.span)
      | side :: more =>
        match side.kind.keyword? with
        | some .FULL | some .CROSS => .error (unknownSide side)
        | some .LEFT | some .RIGHT => .ok more.reverse
        | _ => .error (.syntaxError .outerWithoutSide last.span)
    | _ => .ok part

/-- Drops the words of the operators from the ends of the parts that further `JOIN`s follow. -/
def dropOperators (link : JoinLink) : List JoinLink → Except SqlError (List JoinLink)
  | [] => .ok [link]
  | next :: links => do
    let operand ← dropOperator link.operand
    return ⟨link.join, operand⟩ :: (← dropOperators next links)

/-- Checks that what follows a `JOIN` is a table, an `ON` and a condition. -/
def checkLink (depth : Nat) (link : JoinLink) : Except SqlError Unit :=
  if link.operand = [] ∨ link.operand.head?.any fun t => t.isKeyword .ON then
    .error (.syntaxError .joinWithoutTable link.join.span)
  else
    match Token.splitFirst (Token.isKeywordAt depth .ON) link.operand with
    | none => .error (.syntaxError .joinWithoutOn link.join.span)
    | some (_, on, []) => .error (.syntaxError .emptyOn on.span)
    | some (_, _, _ :: _) => .ok ()

/-- Takes a block apart.  What is wrong with the operators is found before what is wrong with a table or
a condition. -/
def ofBlock (depth : Nat) (block : List Token) : Except SqlError JoinChain :=
  match cut depth block with
  | (head, []) => .ok ⟨head, []⟩
  | (part, first :: others) => do
    let head ← dropOperator part
    if head = [] then .error (.syntaxError .joinWithoutLeftOperand first.join.span)
    else
      let links ← dropOperators first others
      links.forM (checkLink depth)
      return ⟨head, links⟩

end JoinChain

end JetAdapter
