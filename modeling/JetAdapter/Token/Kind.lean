import JetAdapter.Token.Keyword

/-!
# Kinds of tokens
-/

namespace JetAdapter

/-- The operators and delimiters; `NotEq` has the two spellings `<>` and `!=`. -/
inductive Symbol
  | plus | minus | star | slash | percent | ampersand | eq | notEq | lt | ltEq | gt | gtEq
  | concat | backslash | caret | bang | leftParen | rightParen | comma | semicolon | dot
deriving DecidableEq, Repr

/-- What can be wrong inside a token. -/
inductive LexicalFault
  | unterminatedString
  | unterminatedIdentifier
  | unterminatedDate
  | variableNameMissing
  | parameterNameMissing
  | powerDigitsMissing
deriving DecidableEq, Repr

/-- The wording of a lexical fault. -/
def LexicalFault.message : LexicalFault → String
  | .unterminatedString => "Unterminated string literal"
  | .unterminatedIdentifier => "Unterminated quoted identifier"
  | .unterminatedDate => "Unterminated date literal"
  | .variableNameMissing => "Expected variable name after '@@'"
  | .parameterNameMissing => "Expected parameter name after '@'"
  | .powerDigitsMissing => "Invalid float: invalid float literal"

/-- What a token stands for.  Integers are those below `2 ^ 63`; longer ones are floats.  Names of
identifiers come without quotes and names of parameters without the `@`. -/
inductive Kind
  | integer (value : Nat)
  | float (value : Float)
  | string (content : SqlText)
  | date (content : SqlText)
  | identifier (name : SqlText)
  | keyword (word : Keyword)
  | placeholder
  | named (name : SqlText)
  | symbol (symbol : Symbol)
  | other (char : Char)
  | fault (fault : LexicalFault)
  | eof
deriving DecidableEq

namespace Kind

/-- Whether the token is this keyword. -/
def isKeyword (kind : Kind) (k : Keyword) : Bool :=
  kind = .keyword k

/-- Whether the token is this operator or delimiter. -/
def isSymbol (kind : Kind) (s : Symbol) : Bool :=
  kind = .symbol s

theorem isKeyword_iff {kind : Kind} {k : Keyword} : kind.isKeyword k = true ↔ kind = .keyword k :=
  decide_eq_true_iff

theorem isSymbol_iff {kind : Kind} {s : Symbol} : kind.isSymbol s = true ↔ kind = .symbol s :=
  decide_eq_true_iff

/-- Whether the token is an identifier, quoted or not. -/
def isIdentifier : Kind → Bool
  | .identifier _ => true
  | _ => false

/-- Whether the token marks a parameter. -/
def isMarker : Kind → Bool
  | .placeholder | .named _ => true
  | _ => false

/-- The keyword of the token, if it is one. -/
def keyword? : Kind → Option Keyword
  | .keyword k => some k
  | _ => none

/-- The name of the token, if it is an identifier. -/
def name? : Kind → Option SqlText
  | .identifier name => some name
  | _ => none

end Kind

end JetAdapter
