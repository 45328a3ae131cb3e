import JetAdapter.Error
import JetAdapter.Statement.Marked

/-!
# Statements

A statement is SQL text with parameters set into it.  `Statement.parse` finds the places by the markers `?`
of a text, and `Statement.sql` writes the markers back.
-/

namespace JetAdapter

/-- A bound value, and its ordinal once it has one. -/
structure Parameter where
  value : SqlValue
  ordinal : Option Nat
deriving DecidableEq

/-- SQL text with parameters in it. -/
abbrev Statement := Marked Parameter

/-- How markers are spelled: `?`, or `@p` and the ordinal. -/
inductive MarkerStyle
  | positional
  | named
deriving DecidableEq, Repr

/-- The marker that names an ordinal. -/
def namedMarker (ordinal : Nat) : SqlText :=
  '@' :: 'p' :: Decimal.natText ordinal

namespace Statement

/-- The parameters in order. -/
def parameters (s : Statement) : List Parameter :=
  s.marks

/-- Gives each parameter without an ordinal the number of its place among the parameters. -/
def numbered (s : Statement) : Statement :=
  s.withMarks (s.parameters.mapIdx fun i p => ⟨p.value, some (p.ordinal.getD i)⟩)

/-- The text with markers `?`. -/
def sql (s : Statement) : SqlText :=
  s.render fun _ => ['?']

/-- The text with markers that name ordinals; a parameter without one is named by its place. -/
def namedSql (s : Statement) : SqlText :=
  s.numbered.render fun p => namedMarker (p.ordinal.getD 0)

/-- The text with markers of a style. -/
def text (style : MarkerStyle) (s : Statement) : SqlText :=
  match style with
  | .positional => s.sql
  | .named => s.namedSql

/-- Whether the first token is `SELECT`. -/
def isSelect (s : Statement) : Bool :=
  (lex s.sql).head?.any fun l => l.kind.isKeyword .SELECT

/-- The places of the markers `?` in a text. -/
def placeholders (t : SqlText) : Marked Unit :=
  Marked.ofLexemes (fun k => if k = .placeholder then some () else none) (lex t)

/-- Binds values to the markers `?` of a text in order. -/
def parse (t : SqlText) (values : List SqlValue) : Except SqlError Statement :=
  let places := placeholders t
  if places.tail.length = values.length then
    .ok (places.withMarks (values.map fun v => ⟨v, none⟩))
  else .error (.parameterMismatch places.tail.length values.length)

end Statement

end JetAdapter
