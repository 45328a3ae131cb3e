import JetAdapter.Query.Edit
import JetAdapter.Query.Scope

/-!
# Aggregates over distinct values

Jet has no `DISTINCT` inside a call of an aggregate.  `MIN` and `MAX` do without it.  The others are taken
over a table of the distinct values, which is possible where the aggregate is all that is selected:
`SELECT COUNT(DISTINCT e) FROM r` becomes
`SELECT COUNT(distinct_value) FROM (SELECT DISTINCT e AS distinct_value FROM r) AS distinct_rows`.
-/

namespace JetAdapter.Distinct

/-- The aggregate of a call. -/
def aggregate? (t : Token) : Option Keyword :=
  t.kind.keyword?.filter Keyword.isAggregate

/-- The first call of an aggregate over distinct values: the aggregate, the call, the `DISTINCT`, and what
follows it inside the call. -/
def firstCall? (q : Query) : Option (Keyword × Call × Token × List Token) :=
  (q.calls fun t => (aggregate? t).isSome).findSome? fun c =>
    match aggregate? c.name, c.args with
    | some aggregate, distinct :: operand =>
      if distinct.isKeyword .DISTINCT then some (aggregate, c, distinct, operand) else none
    | _, _ => none

/-- Whether what follows the call in its item is nothing or an alias, with or without `AS`. -/
def isAlias : List Token → Bool
  | [] => true
  | [name] => name.kind.isIdentifier
  | [word, _] => word.isKeyword .AS
  | _ => false

/-- Whether what follows `DISTINCT` in a call of this depth is exactly one expression. -/
def isOneExpression (depth : Nat) (operand : List Token) : Bool :=
  match operand with
  | [] => false
  | first :: _ => !first.isSymbol .star && (Token.splitCommas depth operand).length == 1

/-- The text of a scope with the aggregate taken over a table of the distinct values.  The tables and the
filter move into that table, the ordering stays outside. -/
def derivedText (scope : Scope) (tables : Clause) (item aliasTokens operand : List Token) :
    SqlText :=
  let ordering := scope.clause? .ordering
  let inner :=
    (scope.body.filter fun t => tables.start < t.start).takeWhile fun t =>
      ordering.all fun o => t.start < o.start
  Token.spell (scope.select :: scope.modifiers) ++ (item.head?.map fun t => t.gap ++ t.text).getD []
    ++ "(distinct_value)".toList
    ++ (if aliasTokens = [] then [] else ' ' :: Token.spell aliasTokens)
    ++ " FROM (SELECT DISTINCT ".toList ++ Token.spell operand ++ " AS distinct_value FROM ".toList
    ++ Token.spell inner ++ ") AS distinct_rows".toList
    ++ (match ordering with
        | some o => ' ' :: Token.spell (o.words ++ o.body)
        | none => [])

/-- The edit of the scope around a call of an aggregate that cannot do without its `DISTINCT`. -/
def scopeEdit (q : Query) (c : Call) (operand : List Token) : Except DistinctFault Edit := do
  let some scope := q.scopeOfListed? c.name | throw .outsideList
  let [item] := scope.items | throw .notAlone
  let some (call, aliasTokens) := Call.atFront (· = c.name) item | throw .notAlone
  if (scope.clause? .groups).isSome ∨ (scope.clause? .groupFilter).isSome then throw .grouped
  let some tables := scope.clause? .tables | throw .withoutFrom
  unless isAlias aliasTokens do throw .notAnAlias
  unless isOneExpression (call.opening.depth + 1) operand do throw .notOneExpression
  return ⟨⟨scope.select.start, Token.stopOr scope.select.stop scope.body⟩,
    derivedText scope tables item aliasTokens operand⟩

/-- The edit of the first call. -/
def step (q : Query) : Except SqlError (Option Edit) :=
  match firstCall? q with
  | none => .ok none
  | some (aggregate, c, distinct, operand) =>
    if aggregate = .MIN ∨ aggregate = .MAX then
      .ok (some ⟨⟨distinct.start, Token.startOr c.closing.start operand⟩, []⟩)
    else
      match scopeEdit q c operand with
      | .ok edit => .ok (some edit)
      | .error fault => .error (.unsupportedConstruct (.distinct aggregate fault))

/-- Takes all aggregates over distinct values in the ways that Jet knows. -/
def convert (text : SqlText) : Except SqlError SqlText :=
  Query.exhaust step text

end JetAdapter.Distinct
