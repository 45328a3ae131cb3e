import JetAdapter.Guarded.Lexer
import JetAdapter.Query.Scope

/-!
# Tables of tokens

A table holds the tokens of a text in one list, the end of the text included.  Tokens are named by their numbers,
and a stretch of tokens is the range of their numbers.  What `Query` and `Scope` find in lists of tokens is found
here by going over the numbers.
-/

namespace JetAdapter

/-- The numbers from `start` up to but without `stop`. -/
structure TokenRange where
  start : Nat
  stop : Nat
deriving DecidableEq, Repr

namespace TokenRange

/-- How many numbers there are. -/
def size (r : TokenRange) : Nat :=
  r.stop - r.start

/-- The numbers in order. -/
def indices (r : TokenRange) : List Nat :=
  List.range' r.start r.size

end TokenRange

/-- Whether a token is an identifier or a keyword spelled like a word, in any case of letters. -/
def Token.isWord (word : SqlText) (t : Token) : Bool :=
  match t.kind with
  | .identifier name => Text.sameWord name word
  | .keyword k => Text.sameWord k.spelling word
  | _ => false

/-- How many words open a clause. -/
def ClauseKind.wordCount : ClauseKind → Nat
  | .groups | .ordering => 2
  | .tables | .filter | .groupFilter => 1

/-- A text with its tokens, the last of which is its end. -/
structure TokenTable where
  text : SqlText
  tokens : List Token

/-- A `SELECT` with the ranges of its select list and of its clauses without the words that open them.  The token
`stop` is the first one behind the scope. -/
structure TableScope where
  select : Nat
  depth : Nat
  list : TokenRange
  clauses : List (ClauseKind × TokenRange)
  stop : Nat

/-- The range of the clause of a kind; of several the last one. -/
def TableScope.clause? (s : TableScope) (kind : ClauseKind) : Option TokenRange :=
  (s.clauses.reverse.find? fun c => c.1 = kind).map Prod.snd

namespace TokenTable

open Guarded (lift stop minus cutOut)

/-- Reads a text. -/
def ofText (text : SqlText) : Guarded TokenTable := do
  let ls ← Guarded.tokens text
  let ts ← lift (Query.nest 0 ls)
  return ⟨text, ts ++ (ls.getLast?.map fun l => ⟨l, 0⟩).toList⟩

variable (T : TokenTable)

/-! ### Tokens -/

/-- The number of the end. -/
def eof : Guarded Nat :=
  minus T.tokens.length 1

/-- The numbers of all tokens but the end. -/
def indices : Guarded (List Nat) := do
  return TokenRange.indices ⟨0, ← T.eof⟩

/-- The token of a number. -/
def token (i : Nat) : Guarded Token :=
  match T.tokens[i]? with
  | some t => .ok t
  | none => stop (.noToken i)

/-- Whether there is a token of this number and it is this keyword. -/
def isKeyword (i : Nat) (k : Keyword) : Bool :=
  T.tokens[i]?.any fun t => t.isKeyword k

/-- Whether there is a token of this number and it is this operator or delimiter. -/
def isSymbol (i : Nat) (s : Symbol) : Bool :=
  T.tokens[i]?.any fun t => t.isSymbol s

/-- The spelling of a token, as it stands in the text. -/
def spelling (i : Nat) : Guarded SqlText := do
  cutOut T.text (← T.token i).span

/-- The stretch from the start of one token to the end of another. -/
def spanTo (first last : Nat) : Guarded Span := do
  return ⟨(← T.token first).start, (← T.token last).stop⟩

/-- The stretch of a range of tokens, unless it is empty. -/
def rangeSpan (r : TokenRange) : Guarded (Option Span) :=
  if r.stop ≤ r.start then return none
  else do return some (← T.spanTo r.start (← minus r.stop 1))

/-- The text of a range of tokens. -/
def rangeText (r : TokenRange) : Guarded SqlText := do
  match ← T.rangeSpan r with
  | none => return []
  | some span => cutOut T.text span

/-- Whether a marker is among a range of tokens. -/
def hasMarker (r : TokenRange) : Guarded Bool :=
  if r.start ≤ r.stop ∧ r.stop ≤ T.tokens.length then
    return ((T.tokens.drop r.start).take r.size).any fun t => t.kind.isMarker
  else stop (.noTokens r.start r.stop)

/-- The first token of a range that is this keyword and stands at this depth. -/
def findKeyword (r : TokenRange) (depth : Nat) (k : Keyword) : Guarded (Option Nat) :=
  r.indices.findM? fun i => do return (← T.token i).isKeywordAt depth k

/-- The ranges between the commas of a depth.  The first of them starts at `start`, and the tokens that are still
to be looked at have these numbers, up to `stop`. -/
def splitFrom (depth stop start : Nat) : List Nat → Guarded (List TokenRange)
  | [] => return [⟨start, stop⟩]
  | i :: is => do
    if (← T.token i).isSymbolAt depth .comma then
      return ⟨start, i⟩ :: (← splitFrom depth stop (i + 1) is)
    else splitFrom depth stop start is

/-- The ranges between the commas of a depth. -/
def splitCommas (r : TokenRange) (depth : Nat) : Guarded (List TokenRange) :=
  T.splitFrom depth r.stop r.start r.indices

/-! ### Calls -/

/-- The partner of an opening parenthesis. -/
def closing? (opening : Nat) : Guarded (Option Nat) := do
  let depth := (← T.token opening).depth
  (TokenRange.indices ⟨opening + 1, ← T.eof⟩).findM? fun i => do
    return (← T.token i).isSymbolAt depth .rightParen

/-- Whether a dot stands before a token. -/
def followsDot (i : Nat) : Guarded Bool :=
  if i = 0 then return false else do return (← T.token (← minus i 1)).isSymbol .dot

/-- The parentheses behind a token that is the name of a function.  A name between quotes and a name behind a dot
do not count. -/
def callAt (i : Nat) (name : SqlText) : Guarded (Option (Nat × Nat)) := do
  if (← T.token i).isWord name = false then return none
  else if Text.sameWord (← T.spelling i) name = false then return none
  else if ← T.followsDot i then return none
  else if T.isSymbol (i + 1) .leftParen then return (← T.closing? (i + 1)).map fun closing => (i + 1, closing)
  else return none

/-! ### Scopes -/

/-- The kind of the clause that a token opens. -/
def opened? (i : Nat) (t : Token) : Option ClauseKind :=
  match t.kind.keyword? with
  | some .FROM => some .tables
  | some .WHERE => some .filter
  | some .HAVING => some .groupFilter
  | some .GROUP => if T.isKeyword (i + 1) .BY then some .groups else none
  | some .ORDER => if T.isKeyword (i + 1) .BY then some .ordering else none
  | _ => none

/-- The end of a scope of a depth and the tokens that open clauses in it.  The tokens that are still to be looked
at have these numbers, up to `eof`. -/
def scan (depth eof : Nat) : List Nat → Guarded (Nat × List (ClauseKind × Nat))
  | [] => return (eof, [])
  | i :: is => do
    let t ← T.token i
    if !Scope.reaches depth t then return (i, [])
    else
      let (stop, marks) ← scan depth eof is
      match if t.depth = depth then T.opened? i t else none with
      | none => return (stop, marks)
      | some kind => return (stop, (kind, i) :: marks)

/-- Where the first clause opens, or the end of the scope. -/
def firstMark (stop : Nat) : List (ClauseKind × Nat) → Nat
  | [] => stop
  | (_, i) :: _ => i

/-- The ranges of the clauses that these tokens open. -/
def clauseRanges (stop : Nat) : List (ClauseKind × Nat) → List (ClauseKind × TokenRange)
  | [] => []
  | (kind, i) :: marks =>
    let start := i + kind.wordCount
    (kind, ⟨start, max (firstMark stop marks) start⟩) :: clauseRanges stop marks

/-- Where the select list starts: behind `DISTINCT` or `ALL`, and behind `TOP` and the token after it. -/
def listStart (select : Nat) : Nat :=
  let quantified := T.isKeyword (select + 1) .DISTINCT || T.isKeyword (select + 1) .ALL
  let start := if quantified then select + 2 else select + 1
  if T.isKeyword start .TOP then start + 2 else start

/-- The scope of a `SELECT`. -/
def scopeAt (select : Nat) : Guarded TableScope := do
  let depth := (← T.token select).depth
  let eof ← T.eof
  let (stop, marks) ← T.scan depth eof (TokenRange.indices ⟨select + 1, eof⟩)
  let start := T.listStart select
  return ⟨select, depth, ⟨start, max (firstMark stop marks) start⟩, clauseRanges stop marks, stop⟩

/-- The scope of the `SELECT` that a token is, if it is one. -/
def scopeAt? (i : Nat) : Guarded (Option TableScope) := do
  if (← T.token i).isKeyword .SELECT then return some (← T.scopeAt i) else return none

/-- The scopes of a table in the order of their `SELECT`s. -/
def scopes : Guarded (List TableScope) := do
  (← T.indices).filterMapM T.scopeAt?

/-- The innermost scope whose select list holds a token. -/
def scopeOfListed? (i : Nat) : Guarded (Option TableScope) := do
  return (← T.scopes).reverse.find? fun s => s.list.start ≤ i ∧ i < s.list.stop

end TokenTable

end JetAdapter
