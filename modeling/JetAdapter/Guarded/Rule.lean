import JetAdapter.Guarded.Edit
import JetAdapter.Rule.Chain

/-!
# Guarded rules

The rules as they go over tables of tokens.  What they look up, the texts that they put in and their errors are those
of the rules themselves.
-/

namespace JetAdapter.Guarded

variable (T : TokenTable)

/-! ### Letter case functions -/

/-- The edit of the call at a token, if there is one. -/
def letterCaseEdit (i : Nat) : Guarded (Option Edit) := do
  let isUpper := (← T.callAt i "upper".toList).isSome
  let isLower := (← T.callAt i "lower".toList).isSome
  if !isUpper && !isLower then return none
  else
    let jetName := if isUpper then "ucase".toList else "lcase".toList
    let name ← T.spelling i
    return some ⟨← T.spanTo i i, if name.all Char.isUpper then Text.upper jetName else jetName⟩

/-- Renames the calls of `upper` and `lower`. -/
def rename (text : SqlText) : Guarded SqlText := do
  let T ← TokenTable.ofText text
  applyAll (← (← T.indices).filterMapM (letterCaseEdit T)) text

/-! ### Casts -/

/-- The spellings of the identifiers that the tokens of these numbers start with. -/
def identifiers : List Nat → Guarded (List SqlText)
  | [] => return []
  | i :: is => do
    if (← T.token i).kind.isIdentifier then return (← T.spelling i) :: (← identifiers is)
    else return []

/-- The edits of a cast between these parentheses.  Of a cast that is left alone the type is looked at once more, to
warn of it. -/
def castEdits (name opening closing : Nat) : Guarded (List Edit) := do
  let inner := (← T.token opening).depth + 1
  let inside := TokenRange.indices ⟨opening + 1, closing⟩
  match ← inside.reverse.findM? fun i => do return (← T.token i).isKeywordAt inner .AS with
  | none => return []
  | some word =>
    if word = opening + 1 then return []
    else
      let type ← identifiers T (TokenRange.indices ⟨word + 1, closing⟩)
      match Cast.conversion? (Text.joinWith [' '] (type.map Text.lower)) with
      | none =>
        let _ ← T.rangeText ⟨word + 1, closing⟩
        return []
      | some function =>
        let typeStart := (← T.token (← minus word 1)).stop
        return [⟨← T.spanTo name opening, function ++ ['(']⟩,
          ⟨⟨typeStart, (← T.token closing).start⟩, []⟩]

/-- The edits of the cast at a token, if there is one. -/
def castEditsAt (i : Nat) : Guarded (List Edit) := do
  if T.isKeyword i .CAST then
    match ← T.callAt i "cast".toList with
    | none => return []
    | some (opening, closing) => castEdits T i opening closing
  else return []

/-- Makes calls of conversion functions of all casts. -/
def convertCasts (text : SqlText) : Guarded SqlText := do
  let T ← TokenTable.ofText text
  applyAll (← (← T.indices).mapM (castEditsAt T)).flatten text

/-! ### Parts of dates -/

/-- The edit of a call of `EXTRACT` between these parentheses. -/
def extractEdit (name opening closing : Nat) : Guarded Edit := do
  let field := opening + 1
  let fromWord := opening + 2
  let malformed : Guarded Edit := do
    refuse (.unsupportedConstruct (.extractForm (← T.rangeText ⟨name, closing + 1⟩)))
  if closing ≤ fromWord ∨ T.isKeyword fromWord .FROM = false ∨ fromWord + 1 = closing then malformed
  else if (← T.token field).kind.isIdentifier then
    let fieldText ← T.spelling field
    match Extract.interval? fieldText with
    | none => refuse (.unsupportedConstruct (.extractField fieldText))
    | some interval =>
      return ⟨← T.spanTo name fromWord, "DatePart('".toList ++ interval ++ "',".toList⟩
  else malformed

/-- The edit of the call of `EXTRACT` at a token, if there is one. -/
def extractEditAt (i : Nat) : Guarded (Option Edit) := do
  match ← T.callAt i "extract".toList with
  | none => return none
  | some (opening, closing) => return some (← extractEdit T i opening closing)

/-- Makes calls of `DatePart` of all calls of `EXTRACT`. -/
def convertExtracts (text : SqlText) : Guarded SqlText := do
  let T ← TokenTable.ofText text
  applyAll (← (← T.indices).filterMapM (extractEditAt T)) text

/-! ### Searching in texts -/

/-- The call of `InStr` for a call with these arguments. -/
def searchText : List TokenRange → Guarded (Option SqlText)
  | [needle, haystack] => do
    if needle.size = 0 ∨ haystack.size = 0 then return none
    else
      let needleText ← T.rangeText needle
      let haystackText ← T.rangeText haystack
      return some ("InStr(".toList ++ Text.joinWith [',', ' '] [haystackText, needleText] ++ [')'])
  | [needle, haystack, start] => do
    if needle.size = 0 ∨ haystack.size = 0 ∨ start.size = 0 then return none
    else
      let needleText ← T.rangeText needle
      let haystackText ← T.rangeText haystack
      let startText ← T.rangeText start
      return some ("InStr(".toList ++ Text.joinWith [',', ' '] [startText, haystackText, needleText] ++ [')'])
  | _ => return none

/-- The call of `LOCATE` at a token, if there is one. -/
def searchAt (i : Nat) : Guarded (Option (Nat × Nat × Nat)) := do
  return (← T.callAt i "locate".toList).map fun (opening, closing) => (i, opening, closing)

/-- The edit of the last call of `LOCATE`. -/
def searchStep : Guarded (Option Edit) := do
  match ← (← T.indices).reverse.findSomeM? (searchAt T) with
  | none => return none
  | some (name, opening, closing) =>
    let args ← T.splitCommas ⟨opening + 1, closing⟩ ((← T.token opening).depth + 1)
    match ← searchText T args with
    | some text => return some ⟨← T.spanTo name closing, text⟩
    | none => refuse (.unsupportedConstruct (.locateArguments (← T.rangeText ⟨name, closing + 1⟩)))

/-- Makes calls of `InStr` of all calls of `LOCATE`. -/
def convertSearches (text : SqlText) : Guarded SqlText :=
  exhaust searchStep text

/-! ### Aggregates over distinct values -/

/-- A call of an aggregate over distinct values. -/
structure DistinctCall where
  name : Nat
  aggregate : Keyword
  opening : Nat
  closing : Nat

/-- The call of an aggregate over distinct values at a token, if there is one. -/
def distinctCallAt (i : Nat) : Guarded (Option DistinctCall) := do
  match Distinct.aggregate? (← T.token i) with
  | none => return none
  | some aggregate =>
    match ← T.callAt i aggregate.spelling with
    | none => return none
    | some (opening, closing) =>
      if T.isKeyword (opening + 1) .DISTINCT then return some ⟨i, aggregate, opening, closing⟩
      else return none

/-- Whether the tokens of an item from a number on are an alias. -/
def isAlias (start stop : Nat) : Guarded Bool := do
  match ← minus stop start with
  | 0 => return true
  | 1 => return (← T.token start).kind.isIdentifier
  | 2 => return T.isKeyword start .AS
  | _ => return false

/-- Whether a range is exactly one expression. -/
def isOneExpression (depth : Nat) (operand : TokenRange) : Guarded Bool :=
  if operand.size = 0 ∨ T.isSymbol operand.start .star then return false
  else do return (← T.splitCommas operand depth).length = 1

/-- The range of the ordering of a scope together with the two words that open it. -/
def wholeOrdering? (scope : TableScope) : Guarded (Option TokenRange) :=
  match scope.clause? .ordering with
  | none => return none
  | some ordering => do return some ⟨← minus ordering.start 2, ordering.stop⟩

/-- The text of a scope with the aggregate taken over a table of the distinct values. -/
def derivedText (scope : TableScope) (c : DistinctCall) (tables item : TokenRange) : Guarded SqlText := do
  let ordering ← wholeOrdering? scope
  let bodyStop := (ordering.map TokenRange.start).getD scope.stop
  let front ← cutOut T.text ⟨(← T.token scope.select).start, (← T.token scope.list.start).start⟩
  let name ← T.spelling c.name
  let aliasText ← T.rangeText ⟨c.closing + 1, item.stop⟩
  let operandText ← T.rangeText ⟨c.opening + 2, c.closing⟩
  let bodyText ← T.rangeText ⟨tables.start, bodyStop⟩
  let orderingText ← T.rangeText (ordering.getD ⟨0, 0⟩)
  return front ++ name ++ "(distinct_value)".toList
    ++ (if c.closing + 1 = item.stop then [] else ' ' :: aliasText)
    ++ " FROM (SELECT DISTINCT ".toList ++ operandText ++ " AS distinct_value FROM ".toList ++ bodyText
    ++ ") AS distinct_rows".toList ++ (if ordering.isNone then [] else ' ' :: orderingText)

/-- The edit of the scope around a call of an aggregate that cannot do without its `DISTINCT`. -/
def scopeEdit (c : DistinctCall) : Guarded Edit := do
  let unsupported (fault : DistinctFault) : Guarded Edit :=
    refuse (.unsupportedConstruct (.distinct c.aggregate fault))
  match ← T.scopeOfListed? c.name with
  | none => unsupported .outsideList
  | some scope =>
    match ← T.splitCommas scope.list scope.depth with
    | [item] =>
      if item.start ≠ c.name then unsupported .notAlone
      else if (scope.clause? .groups).isSome ∨ (scope.clause? .groupFilter).isSome then unsupported .grouped
      else
        match scope.clause? .tables with
        | none => unsupported .withoutFrom
        | some tables =>
          if !(← isAlias T (c.closing + 1) item.stop) then unsupported .notAnAlias
          else if !(← isOneExpression T ((← T.token c.opening).depth + 1) ⟨c.opening + 2, c.closing⟩) then
            unsupported .notOneExpression
          else
            let text ← derivedText T scope c tables item
            let selectSpan ← T.spanTo scope.select scope.select
            let scopeSpan ← T.rangeSpan ⟨scope.select, scope.stop⟩
            return ⟨⟨selectSpan.start, (scopeSpan.map Span.stop).getD selectSpan.stop⟩, text⟩
    | _ => unsupported .notAlone

/-- The edit of the first call of an aggregate over distinct values. -/
def distinctStep : Guarded (Option Edit) := do
  match ← (← T.indices).findSomeM? (distinctCallAt T) with
  | none => return none
  | some c =>
    if c.aggregate = .MIN ∨ c.aggregate = .MAX then
      return some ⟨⟨(← T.token (c.opening + 1)).start, (← T.token (c.opening + 2)).start⟩, []⟩
    else return some (← scopeEdit T c)

/-- Takes all aggregates over distinct values in the ways that Jet knows. -/
def convertDistincts (text : SqlText) : Guarded SqlText :=
  exhaust distinctStep text

/-! ### Ordering by an alias -/

/-- The identifier that an item of an `ORDER BY` consists of, apart from a direction. -/
def bareName? (item : TokenRange) : Guarded (Option SqlText) := do
  match (← T.token item.start).kind.name? with
  | none => return none
  | some name =>
    let direction := item.start + 1
    if item.size = 1 ∨ item.size = 2 ∧ (T.isKeyword direction .ASC ∨ T.isKeyword direction .DESC) then
      return some name
    else return none

/-- The expression of a select item `expression AS alias` with this alias. -/
def aliased? (name : SqlText) (item : TokenRange) : Guarded (Option TokenRange) :=
  if item.size < 3 then return none
  else do
    let last ← minus item.stop 1
    match (← T.token last).kind.name? with
    | none => return none
    | some aliasName =>
      let word ← minus last 1
      if T.isKeyword word .AS ∧ Text.sameWord aliasName name then return some ⟨item.start, word⟩
      else return none

/-- The edit of one item of an `ORDER BY`, if it names an alias. -/
def orderEdit (scope : TableScope) (item : TokenRange) : Guarded (Option Edit) := do
  match ← bareName? T item with
  | none => return none
  | some name =>
    match ← (← T.splitCommas scope.list scope.depth).findSomeM? (aliased? T name) with
    | none => return none
    | some expression =>
      if (← T.hasMarker expression) || expression.indices.any fun i => T.isKeyword i .SELECT then
        return none
      else
        let text ← T.rangeText expression
        if Text.sameWord text name then return none
        else return some ⟨← T.spanTo item.start item.start, text⟩

/-- The edits of one scope. -/
def orderEdits (scope : TableScope) : Guarded (List Edit) := do
  match scope.clause? .ordering with
  | none => return []
  | some ordering => (← T.splitCommas ordering scope.depth).filterMapM (orderEdit T scope)

/-- Replaces the aliases that an `ORDER BY` names by their expressions. -/
def spellOut (text : SqlText) : Guarded SqlText := do
  let T ← TokenTable.ofText text
  applyAll (← (← T.scopes).mapM (orderEdits T)).flatten text

/-! ### Conditional expressions -/

/-- A condition, or a value to compare the operand with, and the result. -/
structure CaseBranch where
  condition : TokenRange
  result : TokenRange

/-- The error that a `CASE` cannot be expressed. -/
def malformedCase {α : Type} (fault : CaseFault) : Guarded α :=
  refuse (.unsupportedConstruct (.caseExpression fault))

/-- The branches from the `WHEN` at a number on, up to `stop`.  Every branch takes up tokens, so there are never more
rounds than tokens. -/
def caseBranches (depth stop : Nat) : Nat → Nat → Guarded (List CaseBranch)
  | 0, _ => return []
  | rounds + 1, i =>
    if stop ≤ i then return []
    else do
      match ← T.findKeyword ⟨i + 1, stop⟩ depth .THEN with
      | none => malformedCase .thenMissing
      | some word =>
        let next := (← T.findKeyword ⟨word + 1, stop⟩ depth .WHEN).getD stop
        let branch : CaseBranch := ⟨⟨i + 1, word⟩, ⟨word + 1, next⟩⟩
        if branch.condition.size = 0 ∨ branch.result.size = 0 then malformedCase .emptyBranch
        else return branch :: (← caseBranches depth stop rounds next)

/-- One side of a comparison, in parentheses unless it is a single token. -/
def comparand (r : TokenRange) : Guarded SqlText := do
  let text ← T.rangeText r
  if r.size = 1 then return text else return '(' :: (text ++ [')'])

/-- What a branch asks: its condition, or whether the operand equals its value. -/
def conditionText (operand : TokenRange) (b : CaseBranch) : Guarded SqlText :=
  if operand.size = 0 then T.rangeText b.condition
  else do return (← comparand T operand) ++ " = ".toList ++ (← comparand T b.condition)

/-- One call of `IIf` around the text for the branches behind it. -/
def branchText (operand : TokenRange) (b : CaseBranch) (inner : SqlText) : Guarded SqlText := do
  let condition ← conditionText T operand b
  let result ← T.rangeText b.result
  return "IIf(".toList ++ Text.joinWith [',', ' '] [condition, result, inner] ++ [')']

/-- The text for a `CASE` between its word and its `END`. -/
def caseText (depth start stop : Nat) : Guarded SqlText := do
  match ← T.findKeyword ⟨start, stop⟩ depth .WHEN with
  | none => malformedCase .whenMissing
  | some first =>
    let operand : TokenRange := ⟨start, first⟩
    let elseWord? ← T.findKeyword ⟨first, stop⟩ depth .ELSE
    let branchesStop := elseWord?.getD stop
    let bs ← caseBranches T depth branchesStop (branchesStop - first) first
    let isBoundTwice ← if operand.size ≠ 0 ∧ bs.length > 1 then T.hasMarker operand else pure false
    if isBoundTwice then malformedCase .markerInOperand
    else
      match elseWord? with
      | none => bs.foldrM (branchText T operand) "Null".toList
      | some word =>
        if word + 1 < stop then bs.foldrM (branchText T operand) (← T.rangeText ⟨word + 1, stop⟩)
        else malformedCase .emptyElse

/-- The edit of the last `CASE`. -/
def caseStep : Guarded (Option Edit) := do
  match (← T.indices).reverse.find? fun i => T.isKeyword i .CASE with
  | none => return none
  | some word =>
    let depth := (← T.token word).depth
    match ← T.findKeyword ⟨word + 1, ← T.eof⟩ depth .END with
    | none => malformedCase .endMissing
    | some last =>
      let text ← caseText T depth (word + 1) last
      return some ⟨← T.spanTo word last, text⟩

/-- Makes nests of `IIf` of all `CASE` expressions. -/
def convertCases (text : SqlText) : Guarded SqlText :=
  exhaust caseStep text

/-! ### All rules -/

/-- Applies a rule to a text. -/
def applyRule : Rule → SqlText → Guarded SqlText
  | .upperLower => rename
  | .cast => convertCasts
  | .extract => convertExtracts
  | .locate => convertSearches
  | .aggregateDistinct => convertDistincts
  | .orderByAlias => spellOut
  | .caseWhen => convertCases

end JetAdapter.Guarded
