import JetAdapter.Statement.Basic

/-!
# Trackers

While the text of a statement is changed, its parameters are named in it, `@p0`, `@p1` and so on, and kept
aside in a tracker.  Named markers are ordinary tokens and stay what they are wherever they are moved.
Afterwards `Tracker.restore` puts the parameters back where their markers are, and refuses a text in which
markers were lost, copied or added.
-/

namespace JetAdapter

/-- The parameters of a statement, each with its ordinal. -/
structure Tracker where
  parameters : List Parameter
deriving DecidableEq

/-- A marker in a text. -/
inductive Marker
  | positional
  | named (ordinal : Nat)
deriving DecidableEq, Repr

namespace Marker

/-- The number of ordinals. -/
def ordinalCount : Nat := UInt64.size

/-- The ordinal of every marker whose name stands for none. -/
def foreignOrdinal : Nat := ordinalCount - 1

/-- The ordinal that a name stands for: `p` and digits. -/
def ordinalOfName : SqlText → Nat
  | 'p' :: digits => (Decimal.readNat ordinalCount digits).getD foreignOrdinal
  | _ => foreignOrdinal

/-- The marker that a token is. -/
def ofKind? : Kind → Option Marker
  | .placeholder => some .positional
  | .named name => some (.named (ordinalOfName name))
  | _ => none

/-- The ordinal of a named marker. -/
def ordinal? : Marker → Option Nat
  | .positional => none
  | .named n => some n

end Marker

namespace Tracker

/-- Numbers the parameters of a statement that have no ordinal, and writes the statement with named
markers. -/
def linearize (s : Statement) : Tracker × SqlText :=
  (⟨s.numbered.parameters⟩, s.namedSql)

/-- The number of parameters. -/
def size (t : Tracker) : Nat :=
  t.parameters.length

/-- The first parameter with an ordinal. -/
def get? (t : Tracker) (ordinal : Nat) : Option Parameter :=
  t.parameters.find? fun p => p.ordinal = some ordinal

/-- The parameters that markers stand for, in the order of the markers: `?` for the tracked ones as they
come, names for those with their ordinals.  Both sorts together, a name that comes twice or stands for no
parameter, and a wrong number of markers are refused. -/
def resolve? (t : Tracker) (markers : List Marker) : Option (List Parameter) :=
  if markers.length ≠ t.size then none
  else if markers.all (· = .positional) then some t.parameters
  else do
    let ordinals ← markers.mapM Marker.ordinal?
    if ordinals.Nodup then ordinals.mapM t.get? else none

/-- Puts the parameters back into a text where its markers are. -/
def restore (t : Tracker) (text : SqlText) : Except SqlError Statement :=
  let marked := Marked.ofLexemes Marker.ofKind? (lex text)
  match t.resolve? marked.marks with
  | some ps => .ok (marked.withMarks ps)
  | none => .error (.parameterLoss t.size marked.marks.length)

/-- Checks that a statement binds exactly the tracked ordinals, each as often as it is tracked. -/
def verify (t : Tracker) (s : Statement) : Except SqlError Unit :=
  if (s.parameters.map Parameter.ordinal).isPerm (t.parameters.map Parameter.ordinal) then .ok ()
  else .error (.parameterLoss t.size s.parameters.length)

end Tracker

end JetAdapter
