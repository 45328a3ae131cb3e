import JetAdapter.Query.Edit
import JetAdapter.Query.Scope

/-!
# Ordering by an alias

Jet looks the names of an `ORDER BY` up among the columns only, so the alias of a selected expression has
to be replaced by the expression.
-/

namespace JetAdapter.OrderAlias

/-- The identifier that an item of an `ORDER BY` consists of, apart from a direction. -/
def bareName? : List Token → Option (Token × SqlText)
  | [t] => t.kind.name?.map (t, ·)
  | [t, direction] =>
    if direction.isKeyword .ASC ∨ direction.isKeyword .DESC then t.kind.name?.map (t, ·) else none
  | _ => none

/-- The expression of a select item `expression AS alias` with this alias. -/
def aliased? (name : SqlText) (item : List Token) : Option (List Token) :=
  match item.reverse with
  | last :: word :: first :: more =>
    match last.kind.name? with
    | some aliasName =>
      if word.isKeyword .AS ∧ Text.sameWord aliasName name then some (first :: more).reverse else none
    | none => none
  | _ => none

/-- Whether the expression may stand in the `ORDER BY` too: a marker would be bound twice, a subquery is
a matter of its own, and the name itself is no change. -/
def canCopy (name : SqlText) (expression : List Token) : Bool :=
  !(expression.any fun t => t.kind.isMarker) && !(expression.any fun t => t.isKeyword .SELECT)
    && !Text.sameWord (Token.spell expression) name

/-- The edit of one item of an `ORDER BY`. -/
def itemEdit? (items : List (List Token)) (orderItem : List Token) : Option Edit := do
  let (t, name) ← bareName? orderItem
  let expression ← items.findSome? (aliased? name)
  if canCopy name expression then some ⟨t.span, Token.spell expression⟩ else none

/-- The edits of one scope. -/
def scopeEdits (scope : Scope) : List Edit :=
  match scope.clause? .ordering with
  | none => []
  | some ordering =>
    (Token.splitCommas scope.depth ordering.body).filterMap (itemEdit? scope.items)

/-- Replaces the aliases that an `ORDER BY` names by their expressions. -/
def spellOut (text : SqlText) : Except SqlError SqlText := do
  let q ← Query.ofText text
  Edit.applyAll (q.scopes.flatMap scopeEdits) text

end JetAdapter.OrderAlias
