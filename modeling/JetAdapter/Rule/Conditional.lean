import JetAdapter.Query.Edit

/-!
# Conditional expressions

`CASE` is a nest of calls of `IIf` in Jet.  The last `CASE` of a text has no other one inside, so a nest
of them is resolved from inside out; the text is looked at again after every one.
-/

namespace JetAdapter.Conditional

/-- A condition, or a value to compare the operand with, and the result. -/
structure Branch where
  condition : List Token
  result : List Token

/-- Cuts what follows a `WHEN` into branches. -/
def branches (depth : Nat) (ts : List Token) : Except CaseFault (List Branch) :=
  match _h : Token.splitFirst (Token.isKeywordAt depth .THEN) ts with
  | none => .error .thenMissing
  | some (condition, _, afterThen) =>
    match _g : Token.splitFirst (Token.isKeywordAt depth .WHEN) afterThen with
    | none =>
      if condition = [] ∨ afterThen = [] then .error .emptyBranch
      else .ok [⟨condition, afterThen⟩]
    | some (result, _, afterWhen) =>
      if condition = [] ∨ result = [] then .error .emptyBranch
      else (branches depth afterWhen).map (⟨condition, result⟩ :: ·)
termination_by ts.length
decreasing_by
  have h := (Token.splitFirst_eq_some _h).1
  have g := (Token.splitFirst_eq_some _g).1
  simp [h, g]
  omega

/-- One side of a comparison, in parentheses unless it is a single token. -/
def comparand (ts : List Token) : SqlText :=
  if ts.length = 1 then Token.spell ts else '(' :: (Token.spell ts ++ [')'])

/-- What a branch asks: its condition, or whether the operand equals its value. -/
def conditionText (operand : List Token) (branch : Branch) : SqlText :=
  if operand = [] then Token.spell branch.condition
  else comparand operand ++ " = ".toList ++ comparand branch.condition

/-- The nest of calls of `IIf` for some branches and the result where none applies. -/
def nestText (operand : List Token) (otherwise : SqlText) (bs : List Branch) : SqlText :=
  bs.foldr (fun branch inner => "IIf(".toList
    ++ Text.joinWith [',', ' '] [conditionText operand branch, Token.spell branch.result, inner]
    ++ [')']) otherwise

/-- The text for a `CASE` of a depth with these tokens up to its `END`. -/
def caseText (depth : Nat) (inside : List Token) : Except CaseFault SqlText := do
  let some (operand, _, afterWhen) := Token.splitFirst (Token.isKeywordAt depth .WHEN) inside
    | throw .whenMissing
  let (branchTokens, otherwise) :=
    match Token.splitFirst (Token.isKeywordAt depth .ELSE) afterWhen with
    | some (before, _, after) => (before, some after)
    | none => (afterWhen, none)
  let bs ← branches depth branchTokens
  if operand ≠ [] ∧ bs.length > 1 ∧ operand.any fun t => t.kind.isMarker then
    throw .markerInOperand
  match otherwise with
  | none => return nestText operand "Null".toList bs
  | some [] => throw .emptyElse
  | some ts => return nestText operand (Token.spell ts) bs

/-- The edit of a `CASE` before the tokens that follow it. -/
def caseEdit (word : Token) (after : List Token) : Except CaseFault Edit := do
  let some (inside, last, _) := Token.splitFirst (Token.isKeywordAt word.depth .END) after
    | throw .endMissing
  return ⟨⟨word.start, last.stop⟩, ← caseText word.depth inside⟩

/-- The edit of the last `CASE`. -/
def step (q : Query) : Except SqlError (Option Edit) :=
  match Token.splitLast (fun t => t.isKeyword .CASE) q.tokens with
  | none => .ok none
  | some (_, word, after) =>
    match caseEdit word after with
    | .ok edit => .ok (some edit)
    | .error fault => .error (.unsupportedConstruct (.caseExpression fault))

/-- Makes nests of `IIf` of all `CASE` expressions. -/
def convert (text : SqlText) : Except SqlError SqlText :=
  Query.exhaust step text

end JetAdapter.Conditional
