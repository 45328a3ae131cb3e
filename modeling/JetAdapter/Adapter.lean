import JetAdapter.Join.Nesting
import JetAdapter.Rule.Chain
import JetAdapter.Template.Cache

/-!
# Adapting statements

`Adapter.adapt` turns a `SELECT` into one that Jet can read: the parameters are named in the text, joins are
nested, the enabled rules are applied, and the parameters are put back.  What came out is kept as a template,
so that the next statement with the same text needs no more than its parameters put in.  Statements that are
no `SELECT` stay as they are.
-/

namespace JetAdapter

/-- What can be chosen about adapting statements. -/
structure AdapterOptions where
  rules : List Rule
  cacheLimit : Option UInt64
  endMarker : Option SqlText
deriving DecidableEq, Repr

/-- All rules, no limit and no marker. -/
def AdapterOptions.default : AdapterOptions :=
  ⟨Rule.all, none, none⟩

/-- The rules to apply, and the marker to drop from texts before. -/
structure Adapter where
  chain : RuleChain
  endMarker : Option SqlText
deriving DecidableEq, Repr

/-- An adapted statement and its parameters in order; the parameters have ordinals also where the
statement was left alone. -/
structure Adapted where
  statement : Statement
  parameters : List Parameter
deriving DecidableEq

namespace Adapter

/-- The adapter of some options; an empty marker is none. -/
def ofOptions (o : AdapterOptions) : Adapter :=
  ⟨RuleChain.ofList o.rules, o.endMarker.filter (· ≠ [])⟩

/-- The cache of an adapter that does not share one. -/
def cacheOf (o : AdapterOptions) : Cache :=
  Cache.empty (o.cacheLimit.map UInt64.toNat)

/-- The text without the marker. -/
def withoutMarker (a : Adapter) (text : SqlText) : SqlText :=
  match a.endMarker with
  | some marker => Text.eraseAll marker text
  | none => text

/-- Adapts the text of a statement. -/
def adaptText (a : Adapter) (text : SqlText) : Except SqlError SqlText := do
  a.chain.apply (← JoinChain.nestAll (a.withoutMarker text))

/-- Adapts the text of a statement and puts its parameters back. -/
def adaptTracked (a : Adapter) (tracker : Tracker) (linearized : SqlText) :
    Except SqlError Statement := do
  let adapted ← tracker.restore (← a.adaptText linearized)
  tracker.verify adapted
  return adapted

/-- A statement with its parameters as they stand in it. -/
def asAdapted (s : Statement) : Adapted :=
  ⟨s, Statement.parameters s⟩

/-- Adapts a statement, with the help of a cache, and answers the cache afterwards.  Only what was adapted
without an error is kept. -/
def adapt (a : Adapter) (s : Statement) (cache : Cache) : Except SqlError Adapted × Cache :=
  let (tracker, linearized) := Tracker.linearize s
  match cache.get? linearized with
  | some template => ((template.bind tracker).map asAdapted, cache)
  | none =>
    if s.isSelect then
      match a.adaptTracked tracker linearized with
      | .ok adapted => (.ok (asAdapted adapted), cache.store linearized (Template.ofStatement adapted))
      | .error e => (.error e, cache)
    else (.ok ⟨s, tracker.parameters⟩, cache)

end Adapter

end JetAdapter
