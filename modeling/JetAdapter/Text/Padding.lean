import JetAdapter.Text.Basic

/-!
# Padding

Texts filled up with spaces to a width, counted in characters.  A text that is wide enough stays as it is.
-/

namespace JetAdapter.Text

/-- So many spaces. -/
def spaces (n : Nat) : SqlText :=
  List.replicate n ' '

/-- The text at the left of a field. -/
def padRight (width : Nat) (t : SqlText) : SqlText :=
  t ++ spaces (width - t.length)

/-- The text at the right of a field. -/
def padLeft (width : Nat) (t : SqlText) : SqlText :=
  spaces (width - t.length) ++ t

/-- The text in the middle of a field; the odd space goes to the right. -/
def padBoth (width : Nat) (t : SqlText) : SqlText :=
  let n := width - t.length
  spaces (n / 2) ++ t ++ spaces (n - n / 2)

theorem length_padRight (width : Nat) (t : SqlText) :
    (padRight width t).length = max width t.length := by
  simp [padRight, spaces]
  omega

end JetAdapter.Text
