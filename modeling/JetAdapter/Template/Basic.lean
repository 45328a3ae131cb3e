import JetAdapter.Statement.Tracker

/-!
# Templates

A template is an adapted statement without its values: text with slots for ordinals.  `Template.bind` puts
the parameters of another statement into the slots.
-/

namespace JetAdapter

/-- Text with slots for the parameters of given ordinals. -/
abbrev Template := Marked Nat

namespace Template

/-- The slots for parameters with the texts after them; a parameter without an ordinal gets a slot
numbered by its place among the segments, which go on at `index`. -/
def slotsFrom (index : Nat) : List (Parameter × SqlText) → List (Nat × SqlText)
  | [] => []
  | (p, t) :: rest =>
    (p.ordinal.getD index, t) :: slotsFrom (if t = [] then index + 1 else index + 2) rest

/-- The template of a statement. -/
def ofStatement (s : Statement) : Template :=
  ⟨s.head, slotsFrom (if s.head = [] then 0 else 1) s.tail⟩

/-- The text with markers `?`. -/
def sql (t : Template) : SqlText :=
  t.render fun _ => ['?']

/-- Puts tracked parameters into the slots.  There have to be as many slots as parameters, and a
parameter for each slot. -/
def bind (t : Template) (tracker : Tracker) : Except SqlError Statement :=
  let loss : Except SqlError Statement := .error (.parameterLoss tracker.size t.marks.length)
  if t.marks.length = tracker.size then
    match t.marks.mapM tracker.get? with
    | some ps => .ok (t.withMarks ps)
    | none => loss
  else loss

end Template

end JetAdapter
