import JetAdapter.Query.Basic

/-!
# Scopes

The scope of a `SELECT` reaches from its keyword to the parenthesis that closes around it, to a `UNION` or
a semicolon of its own depth, or to the end of the query.  Inside, the words that open clauses at the depth
of the `SELECT` cut the tokens into the select list and the clauses.  Nothing is assumed about the order
of the clauses or their number: of several clauses of one kind the last one counts.
-/

namespace JetAdapter

/-- The kinds of clauses, by the words that open them. -/
inductive ClauseKind
  | tables
  | filter
  | groups
  | groupFilter
  | ordering
deriving DecidableEq, Repr

/-- A clause: the words that open it, what follows them, and the place of what ends it. -/
structure Clause where
  kind : ClauseKind
  words : List Token
  body : List Token
  stop : Nat
deriving DecidableEq

/-- A `SELECT` with all that belongs to it.  The modifiers are `DISTINCT` or `ALL`, and `TOP` with the
token after it. -/
structure Scope where
  select : Token
  body : List Token
  modifiers : List Token
  list : List Token
  clauses : List Clause
deriving DecidableEq

namespace Clause

/-- The kind of the clause that a keyword opens, and how many more words open it; `GROUP` and `ORDER` open
one only together with a `BY`. -/
def opened? (t : Token) (after : List Token) : Option (ClauseKind × Nat) :=
  let byFollows := after.head?.any fun u => u.isKeyword .BY
  match t.kind.keyword? with
  | some .FROM => some (.tables, 0)
  | some .WHERE => some (.filter, 0)
  | some .HAVING => some (.groupFilter, 0)
  | some .GROUP => if byFollows then some (.groups, 1) else none
  | some .ORDER => if byFollows then some (.ordering, 1) else none
  | _ => none

/-- The place where a clause starts. -/
def start (c : Clause) : Nat :=
  Token.startOr c.stop c.words

/-- Cuts the tokens of a scope where clauses of its depth open: what is before the first clause, and the
clauses. -/
def cut (depth stop : Nat) : List Token → List Token × List Clause
  | [] => ([], [])
  | t :: ts =>
    let (front, clauses) := cut depth stop ts
    match if t.depth = depth then opened? t ts else none with
    | none => (t :: front, clauses)
    | some (kind, more) =>
      let clauseStop :=
        match clauses with
        | [] => stop
        | next :: _ => next.start
      ([], ⟨kind, t :: front.take more, front.drop more, clauseStop⟩ :: clauses)

end Clause

namespace Scope

/-- Whether a token still belongs to a scope of this depth. -/
def reaches (depth : Nat) (t : Token) : Bool :=
  depth ≤ t.depth && !(t.depth == depth && (t.isKeyword .UNION || t.isSymbol .semicolon))

/-- How many tokens after a `SELECT` modify it. -/
def modifierCount (body : List Token) : Nat :=
  let quantifier :=
    if body.head?.any fun t => t.isKeyword .DISTINCT || t.isKeyword .ALL then 1 else 0
  if (body.drop quantifier).head?.any fun t => t.isKeyword .TOP then quantifier + 2
  else quantifier

/-- The scope of a `SELECT` before the tokens that follow it in a query with this end. -/
def ofSelect (stop : Nat) (select : Token) (after : List Token) : Scope :=
  let body := after.takeWhile (reaches select.depth)
  let scopeStop := Token.startOr stop (after.dropWhile (reaches select.depth))
  let (front, clauses) := Clause.cut select.depth scopeStop body
  let n := modifierCount body
  ⟨select, body, body.take n, front.drop n, clauses⟩

/-- The scopes of a stretch of tokens in the order of their `SELECT`s. -/
def among (stop : Nat) : List Token → List Scope
  | [] => []
  | t :: ts => if t.isKeyword .SELECT then ofSelect stop t ts :: among stop ts else among stop ts

/-- The depth of the `SELECT` and its clauses. -/
def depth (s : Scope) : Nat :=
  s.select.depth

/-- All tokens of the scope. -/
def tokens (s : Scope) : List Token :=
  s.select :: s.body

/-- The clause of a kind; of several the last one. -/
def clause? (s : Scope) (kind : ClauseKind) : Option Clause :=
  s.clauses.reverse.find? fun c => c.kind = kind

/-- The items of the select list. -/
def items (s : Scope) : List (List Token) :=
  Token.splitCommas s.depth s.list

end Scope

namespace Query

/-- The scopes of a query, the outer ones before those inside them. -/
def scopes (q : Query) : List Scope :=
  Scope.among q.stop q.tokens

/-- The innermost scope whose select list holds a token. -/
def scopeOfListed? (q : Query) (t : Token) : Option Scope :=
  q.scopes.reverse.find? fun s => t ∈ s.list

end Query

end JetAdapter
