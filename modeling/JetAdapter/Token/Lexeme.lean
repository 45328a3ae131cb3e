import JetAdapter.Decimal.Numeral
import JetAdapter.Text.Letter
import JetAdapter.Text.Quoted
import JetAdapter.Token.Kind

/-!
# Lexemes

`lex` cuts a text into lexemes.  A lexeme keeps its own spelling and the *gap* before it, the blanks and
comments that only separate, so that a text is the concatenation of its lexemes (`spell_lex`).  The last
lexeme marks the end and has no spelling; only its gap may hold something.

No text is refused: what is no token is a lexeme of kind `fault`.
-/

namespace JetAdapter

/-- A token with its spelling and the gap before it. -/
structure Lexeme where
  kind : Kind
  gap : SqlText
  text : SqlText
deriving DecidableEq

namespace Lexeme

/-- The text of a list of lexemes. -/
def spell (ls : List Lexeme) : SqlText :=
  ls.flatMap fun l => l.gap ++ l.text

/-! ### Gaps -/

/-- Where in a gap the next character stands. -/
inductive GapPlace
  | blanks
  | lineComment
  | blockComment

/-- Takes the longest gap off a text.  A comment from `--` runs up to the end of its line, one from
the slash and star up to the star and slash, or to the end of the text. -/
def scanGap : GapPlace → SqlText → SqlText × SqlText
  | _, [] => ([], [])
  | .blanks, '-' :: '-' :: t =>
    let (gap, rest) := scanGap .lineComment t
    ('-' :: '-' :: gap, rest)
  | .blanks, '/' :: '*' :: t =>
    let (gap, rest) := scanGap .blockComment t
    ('/' :: '*' :: gap, rest)
  | .blanks, c :: t =>
    if Text.isBlank c then
      let (gap, rest) := scanGap .blanks t
      (c :: gap, rest)
    else ([], c :: t)
  | .lineComment, c :: t =>
    let (gap, rest) := scanGap (if c = '\n' then .blanks else .lineComment) t
    (c :: gap, rest)
  | .blockComment, '*' :: '/' :: t =>
    let (gap, rest) := scanGap .blanks t
    ('*' :: '/' :: gap, rest)
  | .blockComment, c :: t =>
    let (gap, rest) := scanGap .blockComment t
    (c :: gap, rest)

theorem scanGap_text (place : GapPlace) (t : SqlText) :
    (scanGap place t).1 ++ (scanGap place t).2 = t := by
  fun_induction scanGap place t <;> simp_all

/-! ### Single tokens -/

/-- A token at the front of a text, and the text behind it. -/
structure Scan where
  kind : Kind
  text : SqlText
  rest : SqlText

/-- A number: an integer if it is whole and below `2 ^ 63`, otherwise the nearest double. -/
def numberKind (n : Numeral) : Kind :=
  if n.lacksPowerDigits then .fault .powerDigitsMissing
  else if n.isWhole ∧ Decimal.ofDigits n.whole < Decimal.int64Count then .integer (Decimal.ofDigits n.whole)
  else .float (n.toDecimal false).toFloat

/-- Scans a text that starts with a digit. -/
def scanNumber (t : SqlText) : Scan :=
  let (numeral, rest) := Numeral.scan t
  ⟨numberKind numeral, numeral.text, rest⟩

/-- What a word without quotes stands for. -/
def wordKind (word : SqlText) : Kind :=
  match Keyword.ofWord? word with
  | some k => .keyword k
  | none => .identifier word

/-- Scans a text that starts with the first character of a word. -/
def scanWord (t : SqlText) : Scan :=
  let word := t.takeWhile Text.continuesWord
  ⟨wordKind word, word, t.dropWhile Text.continuesWord⟩

/-- Scans what follows an opening quote, up to its closing quote. -/
def scanQuoted (opening closing : Char) (kind : SqlText → Kind) (fault : LexicalFault)
    (t : SqlText) : Scan :=
  match Text.readQuoted closing t with
  | some (content, rest) =>
    ⟨kind content, opening :: (Text.double closing content ++ [closing]), rest⟩
  | none => ⟨.fault fault, opening :: t, []⟩

/-- Scans what follows the `#` of a date. -/
def scanDate (t : SqlText) : Scan :=
  let content := t.takeWhile (· != '#')
  match t.dropWhile (· != '#') with
  | _ :: rest => ⟨.date content, '#' :: (content ++ ['#']), rest⟩
  | [] => ⟨.fault .unterminatedDate, '#' :: t, []⟩

/-- Scans what follows an `@`: the name of a parameter, or after one more `@` that of a system
variable, which is an identifier as it stands. -/
def scanAt : SqlText → Scan
  | '@' :: t =>
    let name := t.takeWhile Text.continuesWord
    ⟨if name = [] then .fault .variableNameMissing else .identifier ('@' :: '@' :: name),
      '@' :: '@' :: name, t.dropWhile Text.continuesWord⟩
  | t =>
    let name := t.takeWhile Text.continuesWord
    ⟨if name = [] then .fault .parameterNameMissing else .named name,
      '@' :: name, t.dropWhile Text.continuesWord⟩

/-- What a character stands for that begins no longer token. -/
def charKind : Char → Kind
  | '(' => .symbol .leftParen
  | ')' => .symbol .rightParen
  | ',' => .symbol .comma
  | ';' => .symbol .semicolon
  | '.' => .symbol .dot
  | '+' => .symbol .plus
  | '-' => .symbol .minus
  | '*' => .symbol .star
  | '/' => .symbol .slash
  | '%' => .symbol .percent
  | '&' => .symbol .ampersand
  | '\\' => .symbol .backslash
  | '^' => .symbol .caret
  | '=' => .symbol .eq
  | '<' => .symbol .lt
  | '>' => .symbol .gt
  | '!' => .symbol .bang
  | '?' => .placeholder
  | c => .other c

/-- Scans an operator, a delimiter or a character that is none. -/
def scanSymbol : Char → SqlText → Scan
  | '<', '=' :: t => ⟨.symbol .ltEq, ['<', '='], t⟩
  | '<', '>' :: t => ⟨.symbol .notEq, ['<', '>'], t⟩
  | '>', '=' :: t => ⟨.symbol .gtEq, ['>', '='], t⟩
  | '!', '=' :: t => ⟨.symbol .notEq, ['!', '='], t⟩
  | '|', '|' :: t => ⟨.symbol .concat, ['|', '|'], t⟩
  | c, t => ⟨charKind c, [c], t⟩

/-- Scans the token that starts with this character. -/
def scan (c : Char) (t : SqlText) : Scan :=
  match c with
  | '\'' => scanQuoted '\'' '\'' .string .unterminatedString t
  | '"' => scanQuoted '"' '"' .identifier .unterminatedIdentifier t
  | '\x60' => scanQuoted '\x60' '\x60' .identifier .unterminatedIdentifier t
  | '[' => scanQuoted '[' ']' .identifier .unterminatedIdentifier t
  | '#' => scanDate t
  | '@' => scanAt t
  | c =>
    if c.isDigit then scanNumber (c :: t)
    else if Text.startsWord c then scanWord (c :: t)
    else scanSymbol c t

/-! ### Nothing is lost -/

theorem scanNumber_text (t : SqlText) : (scanNumber t).text ++ (scanNumber t).rest = t :=
  Numeral.scan_text t

theorem scanWord_text (t : SqlText) : (scanWord t).text ++ (scanWord t).rest = t :=
  List.takeWhile_append_dropWhile

theorem scanQuoted_text (opening closing : Char) (kind : SqlText → Kind) (fault : LexicalFault)
    (t : SqlText) :
    (scanQuoted opening closing kind fault t).text ++ (scanQuoted opening closing kind fault t).rest
      = opening :: t := by
  unfold scanQuoted
  split
  · next h => simp [(Text.eq_of_readQuoted h).1]
  · simp

theorem scanDate_text (t : SqlText) : (scanDate t).text ++ (scanDate t).rest = '#' :: t := by
  unfold scanDate
  split
  · next c rest h =>
    have hc : c = '#' := by
      have := List.head?_dropWhile_not (· != '#') t
      simpa [h] using this
    have : t = t.takeWhile (· != '#') ++ t.dropWhile (· != '#') :=
      List.takeWhile_append_dropWhile.symm
    rw [h, hc] at this
    simp [← this]
  · simp

theorem scanAt_text (t : SqlText) : (scanAt t).text ++ (scanAt t).rest = '@' :: t := by
  unfold scanAt
  split <;> simp [List.takeWhile_append_dropWhile]

theorem scanSymbol_text (c : Char) (t : SqlText) :
    (scanSymbol c t).text ++ (scanSymbol c t).rest = c :: t := by
  unfold scanSymbol
  split <;> rfl

theorem scan_text (c : Char) (t : SqlText) : (scan c t).text ++ (scan c t).rest = c :: t := by
  unfold scan
  split
  · exact scanQuoted_text ..
  · exact scanQuoted_text ..
  · exact scanQuoted_text ..
  · exact scanQuoted_text ..
  · exact scanDate_text t
  · exact scanAt_text t
  · split
    · exact scanNumber_text _
    · split
      · exact scanWord_text _
      · exact scanSymbol_text ..

/-! ### No token is empty -/

theorem scan_text_ne_nil (c : Char) (t : SqlText) : (scan c t).text ≠ [] := by
  unfold scan
  split
  · unfold scanQuoted; split <;> simp
  · unfold scanQuoted; split <;> simp
  · unfold scanQuoted; split <;> simp
  · unfold scanQuoted; split <;> simp
  · unfold scanDate; split <;> simp
  · unfold scanAt; split <;> simp
  · split
    · next h => simp [scanNumber, Numeral.scan, Numeral.text, h]
    · split
      · next h => simp [scanWord, Text.continuesWord_of_startsWord h]
      · unfold scanSymbol; split <;> simp

theorem length_scan_rest (c : Char) (t : SqlText) : (scan c t).rest.length ≤ t.length := by
  have h := congrArg List.length (scan_text c t)
  have := List.length_pos_iff.2 (scan_text_ne_nil c t)
  simp at h
  omega

end Lexeme

/-! ### Whole texts -/

/-- Cuts a text into lexemes, the last of which marks its end. -/
def lex (t : SqlText) : List Lexeme :=
  match _h : Lexeme.scanGap .blanks t with
  | (gap, []) => [⟨.eof, gap, []⟩]
  | (gap, c :: r) =>
    ⟨(Lexeme.scan c r).kind, gap, (Lexeme.scan c r).text⟩ :: lex (Lexeme.scan c r).rest
termination_by t.length
decreasing_by
  have hg := congrArg List.length (Lexeme.scanGap_text .blanks t)
  have := Lexeme.length_scan_rest c r
  simp [_h] at hg
  omega

/-- A text is the concatenation of its lexemes. -/
theorem spell_lex (t : SqlText) : Lexeme.spell (lex t) = t := by
  fun_induction lex t with
  | case1 t gap h =>
    have := Lexeme.scanGap_text .blanks t
    simpa [h, Lexeme.spell] using this
  | case2 t gap c r h ih =>
    have hg := Lexeme.scanGap_text .blanks t
    have hs := Lexeme.scan_text c r
    simp only [h] at hg
    rw [Lexeme.spell, List.flatMap_cons, ← Lexeme.spell, ih, List.append_assoc, hs, hg]

end JetAdapter
