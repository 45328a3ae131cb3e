import JetAdapter.Guarded.Basic

/-!
# Reading tokens by offsets

The scanner as a cursor that goes along a text.  It looks at the one or two characters behind the cursor, and cuts
what it read out of the text when a token is complete.  The cursor goes forward in every round, so there are never
more rounds than characters.
-/

namespace JetAdapter.Guarded

variable (input : SqlText)

/-! ### The cursor -/

/-- The character behind the cursor. -/
def peek (cursor : Nat) : Guarded (Option Char) := do
  return (← cutFrom input cursor)[0]?

/-- The character behind that one. -/
def peekNext (cursor : Nat) : Guarded (Option Char) := do
  return (← cutFrom input cursor)[1]?

/-- Goes on behind the characters with a property. -/
def eatWhile (p : Char → Bool) : Nat → Nat → Guarded Nat
  | 0, cursor => return cursor
  | rounds + 1, cursor => do
    match ← peek input cursor with
    | none => return cursor
    | some c => if p c then eatWhile p rounds (cursor + c.utf8Size) else return cursor

/-- Goes on behind the end of a block comment. -/
def eatBlock : Nat → Nat → Guarded Nat
  | 0, cursor => return cursor
  | rounds + 1, cursor => do
    match ← peek input cursor with
    | none => return cursor
    | some c =>
      let next := cursor + c.utf8Size
      if c = '*' ∧ (← peek input next) = some '/' then return next + '/'.utf8Size
      else eatBlock rounds next

/-- Goes on behind blanks and comments. -/
def eatGap : Nat → Nat → Guarded Nat
  | 0, cursor => return cursor
  | rounds + 1, cursor => do
    let cursor ← eatWhile input Text.isBlank input.length cursor
    let first ← peek input cursor
    let second ← peekNext input cursor
    if first = some '-' ∧ second = some '-' then
      eatGap rounds (← eatWhile input (· != '\n') input.length cursor)
    else if first = some '/' ∧ second = some '*' then
      eatGap rounds (← eatBlock input input.length (cursor + '/'.utf8Size + '*'.utf8Size))
    else return cursor

/-- Goes on behind what stands between quotes and its closing quote, and answers the content, if there is a closing
quote. -/
def eatQuoted (closing : Char) : Nat → SqlText → Nat → Guarded (Option SqlText × Nat)
  | 0, _, cursor => return (none, cursor)
  | rounds + 1, content, cursor => do
    match ← peek input cursor with
    | none => return (none, cursor)
    | some c =>
      let next := cursor + c.utf8Size
      if c = closing then
        if (← peek input next) = some closing then
          eatQuoted closing rounds (content ++ [closing]) (next + closing.utf8Size)
        else return (some content, next)
      else eatQuoted closing rounds (content ++ [c]) next

/-! ### Single tokens

Each of these answers the kind of the token that starts at `start`, and where it ends. -/

/-- Reads a word. -/
def readWord (start : Nat) : Guarded (Kind × Nat) := do
  let stop ← eatWhile input Text.continuesWord input.length start
  return (Lexeme.wordKind (← cutOut input ⟨start, stop⟩), stop)

/-- Reads what stands between quotes. -/
def readQuoted (opening closing : Char) (kind : SqlText → Kind) (fault : LexicalFault) (start : Nat) :
    Guarded (Kind × Nat) := do
  match ← eatQuoted input closing input.length [] (start + opening.utf8Size) with
  | (some content, stop) => return (kind content, stop)
  | (none, stop) => return (.fault fault, stop)

/-- Reads a date. -/
def readDate (start : Nat) : Guarded (Kind × Nat) := do
  let contentStart := start + '#'.utf8Size
  let contentStop ← eatWhile input (· != '#') input.length contentStart
  match ← peek input contentStop with
  | none => return (.fault .unterminatedDate, contentStop)
  | some c =>
    return (.date (← cutOut input ⟨contentStart, contentStop⟩), contentStop + c.utf8Size)

/-- Reads the name of a parameter or of a system variable. -/
def readAt (start : Nat) : Guarded (Kind × Nat) := do
  let second := start + '@'.utf8Size
  if (← peek input second) = some '@' then
    let nameStart := second + '@'.utf8Size
    let stop ← eatWhile input Text.continuesWord input.length nameStart
    if stop = nameStart then return (.fault .variableNameMissing, stop)
    else return (.identifier (← cutOut input ⟨start, stop⟩), stop)
  else
    let stop ← eatWhile input Text.continuesWord input.length second
    if stop = second then return (.fault .parameterNameMissing, stop)
    else return (.named (← cutOut input ⟨second, stop⟩), stop)

/-- Goes on behind a point and the digits after it. -/
def eatFraction (cursor : Nat) : Guarded Nat := do
  if (← peek input cursor) = some '.' ∧ ((← peekNext input cursor).any Char.isDigit) then
    eatWhile input Char.isDigit input.length (cursor + '.'.utf8Size)
  else return cursor

/-- Goes on behind a power of ten. -/
def eatPower (cursor : Nat) : Guarded Nat := do
  match ← peek input cursor with
  | none => return cursor
  | some mark =>
    if (mark = 'e' ∨ mark = 'E')
        ∧ ((← peekNext input cursor).any fun c => c.isDigit || c == '+' || c == '-') then
      let afterMark := cursor + mark.utf8Size
      match ← peek input afterMark with
      | some sign =>
        if sign = '+' ∨ sign = '-' then
          eatWhile input Char.isDigit input.length (afterMark + sign.utf8Size)
        else eatWhile input Char.isDigit input.length afterMark
      | none => eatWhile input Char.isDigit input.length afterMark
    else return cursor

/-- Reads a number. -/
def readNumber (start : Nat) : Guarded (Kind × Nat) := do
  let whole ← eatWhile input Char.isDigit input.length start
  let stop ← eatPower input (← eatFraction input whole)
  return (Lexeme.numberKind (Numeral.scan (← cutOut input ⟨start, stop⟩)).1, stop)

/-- Reads an operator, a delimiter or a character that is none. -/
def readSymbol (c : Char) (start : Nat) : Guarded (Kind × Nat) := do
  let next := start + c.utf8Size
  match c, ← peek input next with
  | '<', some '=' => return (.symbol .ltEq, next + '='.utf8Size)
  | '<', some '>' => return (.symbol .notEq, next + '>'.utf8Size)
  | '>', some '=' => return (.symbol .gtEq, next + '='.utf8Size)
  | '!', some '=' => return (.symbol .notEq, next + '='.utf8Size)
  | '|', some '|' => return (.symbol .concat, next + '|'.utf8Size)
  | c, _ => return (Lexeme.charKind c, next)

/-- Reads the token that starts with this character. -/
def readToken (c : Char) (start : Nat) : Guarded (Kind × Nat) :=
  match c with
  | '\'' => readQuoted input '\'' '\'' .string .unterminatedString start
  | '"' => readQuoted input '"' '"' .identifier .unterminatedIdentifier start
  | '\x60' => readQuoted input '\x60' '\x60' .identifier .unterminatedIdentifier start
  | '[' => readQuoted input '[' ']' .identifier .unterminatedIdentifier start
  | '#' => readDate input start
  | '@' => readAt input start
  | c =>
    if c.isDigit then readNumber input start
    else if Text.startsWord c then readWord input start
    else readSymbol input c start

/-! ### Whole texts -/

/-- The token behind the cursor, with the blanks and comments before it. -/
def nextToken (cursor : Nat) : Guarded PlacedLexeme := do
  let start ← eatGap input (input.length + 1) cursor
  let gap ← cutOut input ⟨cursor, start⟩
  match ← peek input start with
  | none => return ⟨⟨.eof, gap, []⟩, start⟩
  | some c =>
    let (kind, stop) ← readToken input c start
    return ⟨⟨kind, gap, ← cutOut input ⟨start, stop⟩⟩, start⟩

/-- The tokens behind the cursor. -/
def tokensFrom : Nat → Nat → Guarded (List PlacedLexeme)
  | 0, _ => return []
  | rounds + 1, cursor => do
    let l ← nextToken input cursor
    if l.kind = .eof then return [l] else return l :: (← tokensFrom rounds l.stop)

/-- The tokens of a text with their places. -/
def tokens : Guarded (List PlacedLexeme) :=
  tokensFrom input (input.length + 1) 0

end JetAdapter.Guarded
