import JetAdapter.Error

/-!
# Queries

A query is a text whose tokens are all sound and whose parentheses match.  Each token knows its *depth*,
the number of parentheses open around it; a parenthesis and its partner have the depth of what is
around both.  Stretches of a query are lists of its tokens, so no index can point outside.
-/

namespace JetAdapter

/-- A token of a query: a lexeme with its place and the number of parentheses open around it. -/
structure Token extends PlacedLexeme where
  depth : Nat
deriving DecidableEq

namespace Token

/-- Whether the token is this keyword. -/
def isKeyword (t : Token) (k : Keyword) : Bool :=
  t.kind.isKeyword k

/-- Whether the token is this operator or delimiter. -/
def isSymbol (t : Token) (s : Symbol) : Bool :=
  t.kind.isSymbol s

/-- Whether the token is this keyword and stands at this depth. -/
def isKeywordAt (depth : Nat) (k : Keyword) (t : Token) : Bool :=
  t.depth == depth && t.isKeyword k

/-- Whether the token is this operator or delimiter and stands at this depth. -/
def isSymbolAt (depth : Nat) (s : Symbol) (t : Token) : Bool :=
  t.depth == depth && t.isSymbol s

/-- Whether the token is spelled like a word, in any case of letters. -/
def spells (word : SqlText) (t : Token) : Bool :=
  Text.sameWord t.text word

/-- The text of a stretch of tokens from the first spelling to the last: the gaps between the tokens
belong to it, the gap before the first one does not. -/
def spell : List Token → SqlText
  | [] => []
  | t :: ts => t.text ++ ts.flatMap fun u => u.gap ++ u.text

end Token

/-- A text with its tokens. -/
structure Query where
  text : SqlText
  tokens : List Token
deriving DecidableEq

namespace Query

/-- Gives tokens their depth, inside so many open parentheses, and drops the end of the text.  The
first fault in the order of the text is the error. -/
def nest (depth : Nat) : List PlacedLexeme → Except SqlError (List Token)
  | [] => .ok []
  | l :: ls =>
    match l.kind with
    | .fault fault => .error (.syntaxError (.lexical fault) l.span)
    | .eof => if depth = 0 then .ok [] else .error (.syntaxError .unclosedParen l.span)
    | .symbol .leftParen => (nest (depth + 1) ls).map (⟨l, depth⟩ :: ·)
    | .symbol .rightParen =>
      match depth with
      | 0 => .error (.syntaxError .unbalancedParen l.span)
      | outer + 1 => (nest outer ls).map (⟨l, outer⟩ :: ·)
    | _ => (nest depth ls).map (⟨l, depth⟩ :: ·)

/-- Reads a text as a query. -/
def ofText (text : SqlText) : Except SqlError Query :=
  (nest 0 (tokenize text)).map fun tokens => ⟨text, tokens⟩

/-- The place behind the last byte. -/
def stop (q : Query) : Nat :=
  Text.byteSize q.text

end Query

/-! ### Stretches of tokens -/

namespace Token

/-- The place where a stretch goes on: the start of its first token, or the place where all ends. -/
def startOr (stop : Nat) : List Token → Nat
  | [] => stop
  | t :: _ => t.start

/-- The place behind the last token of a stretch, or another place if there is none. -/
def stopOr (start : Nat) (ts : List Token) : Nat :=
  match ts.getLast? with
  | none => start
  | some t => t.stop

/-- Splits at the first token with a property: what is before it, the token, and what is after it. -/
def splitFirst (p : Token → Bool) : List Token → Option (List Token × Token × List Token)
  | [] => none
  | t :: ts =>
    if p t then some ([], t, ts)
    else (splitFirst p ts).map fun (before, found, after) => (t :: before, found, after)

/-- Splits at the last token with a property. -/
def splitLast (p : Token → Bool) (ts : List Token) : Option (List Token × Token × List Token) :=
  (splitFirst p ts.reverse).map fun (after, found, before) => (before.reverse, found, after.reverse)

/-- A stretch between commas, and the place of what ends it. -/
structure Piece where
  tokens : List Token
  stop : Nat
deriving DecidableEq

/-- Cuts a stretch at the commas of a depth; `stop` is the place of what comes after it. -/
def pieces (depth stop : Nat) : List Token → List Piece
  | [] => [⟨[], stop⟩]
  | t :: ts =>
    if t.isSymbolAt depth .comma then ⟨[], t.start⟩ :: pieces depth stop ts
    else
      match pieces depth stop ts with
      | [] => [⟨[t], stop⟩]
      | p :: ps => ⟨t :: p.tokens, p.stop⟩ :: ps

/-- The stretches between the commas of a depth. -/
def splitCommas (depth : Nat) (ts : List Token) : List (List Token) :=
  (pieces depth 0 ts).map Piece.tokens

theorem splitFirst_eq_some {p : Token → Bool} {ts before after : List Token} {found : Token}
    (h : splitFirst p ts = some (before, found, after)) :
    ts = before ++ found :: after ∧ p found ∧ ∀ t ∈ before, ¬p t := by
  induction ts generalizing before with
  | nil => simp [splitFirst] at h
  | cons t ts ih =>
    rw [splitFirst] at h
    split at h
    · next hp =>
      obtain ⟨rfl, rfl, rfl⟩ : [] = before ∧ t = found ∧ ts = after := by simpa using h
      exact ⟨rfl, hp, by simp⟩
    · next hp =>
      obtain ⟨⟨b, f, a⟩, hs, he⟩ := Option.map_eq_some_iff.1 h
      obtain ⟨rfl, rfl, rfl⟩ : t :: b = before ∧ f = found ∧ a = after := by simpa using he
      obtain ⟨rfl, hf, hb⟩ := ih hs
      exact ⟨rfl, hf, by simpa using ⟨by simpa using hp, by simpa using hb⟩⟩

/-- There is always a first piece. -/
theorem pieces_ne_nil (depth stop : Nat) (ts : List Token) : pieces depth stop ts ≠ [] := by
  fun_cases pieces depth stop ts <;> simp_all

end Token

/-! ### Calls -/

/-- A call of a function: its name, the parenthesis after it, what is inside, and the partner of the
parenthesis. -/
structure Call where
  name : Token
  opening : Token
  args : List Token
  closing : Token
deriving DecidableEq

namespace Call

/-- The call that a stretch starts with, if its name has a property, and what comes after the call. -/
def atFront (p : Token → Bool) : List Token → Option (Call × List Token)
  | name :: opening :: ts =>
    if p name ∧ opening.isSymbol .leftParen then
      (Token.splitFirst (Token.isSymbolAt opening.depth .rightParen) ts).map
        fun (args, closing, after) => (⟨name, opening, args, closing⟩, after)
    else none
  | _ => none

/-- The calls in a stretch whose names have a property, in the order of the names.  A name that is
qualified by a dot before it does not count. -/
def among (p : Token → Bool) (afterDot : Bool) : List Token → List Call
  | [] => []
  | t :: ts =>
    let later := among p (t.isSymbol .dot) ts
    match atFront p (t :: ts) with
    | some (call, _) => if afterDot then later else call :: later
    | none => later

/-- All tokens of the call. -/
def tokens (c : Call) : List Token :=
  c.name :: c.opening :: (c.args ++ [c.closing])

/-- The arguments between the commas. -/
def arguments (c : Call) : List (List Token) :=
  Token.splitCommas (c.opening.depth + 1) c.args

end Call

/-- The calls in a query whose names have a property. -/
def Query.calls (p : Token → Bool) (q : Query) : List Call :=
  Call.among p false q.tokens

end JetAdapter
