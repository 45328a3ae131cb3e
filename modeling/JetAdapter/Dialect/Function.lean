import JetAdapter.Error

/-!
# Functions of a dialect

How a function that is written alike everywhere is spelled in a dialect.  `FunctionForm.render` writes a
call of it with the texts of its arguments; these are never looked into.
-/

namespace JetAdapter

/-- A way to spell a function: under another name, by a text in which `?1`, `?2` and so on stand for the
arguments, as a bare word, as a sum of the arguments, or as the first argument that is not null. -/
inductive FunctionForm
  | renamed (name : SqlText)
  | expansion (template : SqlText)
  | bare (word : SqlText)
  | concat
  | coalesce
deriving DecidableEq, Repr

namespace FunctionForm

/-- The error that an argument of a function is missing. -/
def missing (function : SqlText) (number : Nat) : SqlError :=
  .unsupportedConstruct (.missingArgument function number)

/-- Puts the arguments in the place of `?1`, `?2` and so on.  A `?` without a number that fits a word
counts as number 0, and there is no argument 0. -/
def expand (function : SqlText) (args : List SqlText) : SqlText → Except SqlError SqlText
  | [] => .ok []
  | c :: t =>
    if c = '?' then
      let number := (Decimal.readNat UInt64.size (t.takeWhile Char.isDigit)).getD 0
      match if number = 0 then none else args[number - 1]? with
      | none => .error (missing function number)
      | some arg => (expand function args (t.dropWhile Char.isDigit)).map (arg ++ ·)
    else (expand function args t).map (c :: ·)
termination_by t => t.length
decreasing_by
  · have := (List.dropWhile_sublist Char.isDigit (l := t)).length_le
    simp only [List.length_cons]
    omega
  · simp

/-- The first of an argument and some others that is not null. -/
def firstNotNull (arg : SqlText) : List SqlText → SqlText
  | [] => arg
  | next :: args =>
    "IIf(IsNull(".toList ++ arg ++ "), ".toList ++ firstNotNull next args ++ ", ".toList ++ arg
      ++ [')']

theorem firstNotNull_cons (arg next : SqlText) (args : List SqlText) :
    firstNotNull arg (next :: args) = "IIf(IsNull(".toList ++ arg ++ "), ".toList ++ firstNotNull next args
      ++ ", ".toList ++ arg ++ [')'] := rfl

/-- Writes a call of a function with these arguments. -/
def render (function : SqlText) (args : List SqlText) : FunctionForm → Except SqlError SqlText
  | .renamed name => .ok (name ++ '(' :: (Text.joinWith ", ".toList args ++ [')']))
  | .expansion template => expand function args template
  | .bare word => .ok word
  | .concat =>
    match args with
    | [] => .error (missing function 1)
    | _ :: _ => .ok ('(' :: (Text.joinWith " + ".toList args ++ [')']))
  | .coalesce =>
    match args with
    | [] => .error (missing function 1)
    | arg :: others => .ok (firstNotNull arg others)

end FunctionForm

end JetAdapter
