import JetAdapter.Token.Span
import JetAdapter.Value

/-!
# Errors

Every way in which a statement can be refused, by its cause.  The wording is in `SqlError.message`.
-/

namespace JetAdapter

/-- Where the syntax of a statement goes wrong. -/
inductive SyntaxFault
  | lexical (fault : LexicalFault)
  | unbalancedParen
  | unclosedParen
  | overlappingEdits
  | emptyTableExpression
  | joinUnknownToJet (side : SqlText)
  | outerWithoutSide
  | joinWithoutLeftOperand
  | joinWithoutTable
  | joinWithoutOn
  | emptyOn
deriving DecidableEq

/-- The wording of a syntax fault. -/
def SyntaxFault.message : SyntaxFault → String
  | .lexical fault => fault.message
  | .unbalancedParen => "Unbalanced ')'"
  | .unclosedParen => "Unclosed '('"
  | .overlappingEdits => "Overlapping rewrites of the same text"
  | .emptyTableExpression => "Empty table expression in FROM clause"
  | .joinUnknownToJet side => String.ofList side ++ " JOIN is not supported by Jet"
  | .outerWithoutSide => "OUTER JOIN must be LEFT or RIGHT"
  | .joinWithoutLeftOperand => "JOIN without a left operand"
  | .joinWithoutTable => "JOIN without a table after it"
  | .joinWithoutOn => "JOIN without an ON condition"
  | .emptyOn => "Empty ON condition"

/-- Why a row limit cannot be expressed. -/
inductive LimitFault
  | offset
  | parameterized
  | notSelect
  | notACount (value : SqlValue)
deriving DecidableEq

/-- The wording of a limit fault. -/
def LimitFault.message : LimitFault → String
  | .offset => "Jet does not support an offset"
  | .parameterized => "Jet does not support a parameterized limit"
  | .notSelect => "The query should start with 'SELECT' or 'SELECT DISTINCT'"
  | .notACount value =>
    "limit must be a non-negative integer, got " ++ String.ofList value.inlineText

/-- Why an aggregate over distinct values cannot be expressed. -/
inductive DistinctFault
  | outsideList
  | notAlone
  | grouped
  | withoutFrom
  | notAnAlias
  | notOneExpression
deriving DecidableEq

/-- The wording of a fault of an aggregate over distinct values. -/
def DistinctFault.message : DistinctFault → String
  | .outsideList => "only supported in a select list"
  | .notAlone => "must be the only item of the select list"
  | .grouped => "can not be combined with GROUP BY or HAVING"
  | .withoutFrom => "requires a FROM clause"
  | .notAnAlias => "the aggregate can only be followed by an alias"
  | .notOneExpression => "expects exactly one expression"

/-- Why a `CASE` cannot be expressed. -/
inductive CaseFault
  | endMissing
  | whenMissing
  | thenMissing
  | emptyBranch
  | markerInOperand
  | emptyElse
deriving DecidableEq

/-- The wording of a fault of a `CASE`. -/
def CaseFault.message : CaseFault → String
  | .endMissing => "missing END"
  | .whenMissing => "expected at least one WHEN"
  | .thenMissing => "WHEN without THEN"
  | .emptyBranch => "empty WHEN or THEN"
  | .markerInOperand => "a parameterized operand would be bound once per WHEN"
  | .emptyElse => "empty ELSE"

/-- Why a construct cannot be expressed. -/
inductive ConstructFault
  | extractForm (call : SqlText)
  | extractField (field : SqlText)
  | locateArguments (call : SqlText)
  | distinct (aggregate : Keyword) (fault : DistinctFault)
  | caseExpression (fault : CaseFault)
  | missingArgument (function : SqlText) (number : Nat)
deriving DecidableEq

/-- The name of the construct. -/
def ConstructFault.construct : ConstructFault → String
  | .extractForm _ | .extractField _ => "EXTRACT"
  | .locateArguments _ => "LOCATE"
  | .distinct aggregate _ => String.ofList aggregate.spelling ++ "(DISTINCT)"
  | .caseExpression _ => "CASE"
  | .missingArgument _ _ => "function"

/-- The reason given for a construct that cannot be expressed. -/
def ConstructFault.reason : ConstructFault → String
  | .extractForm call => "expected EXTRACT(field FROM expr), got " ++ String.ofList call
  | .extractField field => "no Jet interval for field '" ++ String.ofList field ++ "'"
  | .locateArguments call => "expected 2 or 3 arguments, got " ++ String.ofList call
  | .distinct _ fault => fault.message
  | .caseExpression fault => fault.message
  | .missingArgument function n => String.ofList function ++ " is missing argument " ++ toString n

/-- Why a statement is refused. -/
inductive SqlError
  /-- The syntax is wrong at some place. -/
  | syntaxError (fault : SyntaxFault) (span : Span)
  /-- The markers of a text do not stand for the parameters one by one. -/
  | parameterLoss (expected found : Nat)
  /-- A limit that Jet does not know. -/
  | unsupportedClause (fault : LimitFault)
  /-- A construct that has no counterpart in Jet. -/
  | unsupportedConstruct (fault : ConstructFault)
  /-- The values are not as many as the markers. -/
  | parameterMismatch (markers values : Nat)
  /-- An edit of a stretch that is no part of the text. -/
  | misplacedEdit (span : Span)
deriving DecidableEq

/-- The wording of an error. -/
def SqlError.message : SqlError → String
  | .syntaxError fault span =>
    "Invalid SQL syntax at " ++ toString span.start ++ ".." ++ toString span.stop ++ ": "
      ++ fault.message
  | .parameterLoss expected found =>
    "Rewrite removed SQL parameters and they can not be restored (expected "
      ++ toString expected ++ ", found " ++ toString found ++ ")"
  | .unsupportedClause fault => "Unsupported clause: " ++ fault.message
  | .unsupportedConstruct fault => "Unsupported " ++ fault.construct ++ ": " ++ fault.reason
  | .parameterMismatch markers values =>
    "Statement has " ++ toString markers ++ " parameter markers but " ++ toString values
      ++ " values were supplied"
  | .misplacedEdit span =>
    "No text at " ++ toString span.start ++ ".." ++ toString span.stop

end JetAdapter
