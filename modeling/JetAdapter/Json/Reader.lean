import JetAdapter.Json.Basic

/-!
# Reading JSON

`Json.read?` reads a whole text.  Every reader answers a value and the text behind it.  Arrays and objects
are read with a budget of rounds: an opening bracket takes two of them and a comma one, so twice the
length of the text and one more are always enough.
-/

namespace JetAdapter.Json

/-- The blanks of JSON. -/
def isBlank (c : Char) : Bool :=
  c = ' ' || c = '\n' || c = '\t' || c = '\r'

/-- The text behind its first blanks. -/
def skipBlanks (t : SqlText) : SqlText :=
  t.dropWhile isBlank

/-! ### Strings -/

/-- A part of a string: a character, or a 16-bit unit that an escape names. -/
inductive StringPart
  | char (c : Char)
  | unit (n : Nat)
deriving DecidableEq, Repr

/-- The value of a hexadecimal digit. -/
def hexValue? (c : Char) : Option Nat :=
  if c.isDigit then some (c.toNat - '0'.toNat)
  else if 'a' ≤ c ∧ c ≤ 'f' then some (c.toNat - 'a'.toNat + 10)
  else if 'A' ≤ c ∧ c ≤ 'F' then some (c.toNat - 'A'.toNat + 10)
  else none

/-- The character that an escape with one letter names. -/
def escaped? : Char → Option Char
  | '"' => some '"'
  | '\\' => some '\\'
  | '/' => some '/'
  | 'b' => some '\x08'
  | 'f' => some '\x0c'
  | 'n' => some '\n'
  | 'r' => some '\r'
  | 't' => some '\t'
  | _ => none

/-- The unit of four hexadecimal digits. -/
def unit? (a b c d : Char) : Option Nat := do
  return (((← hexValue? a) * 16 + (← hexValue? b)) * 16 + (← hexValue? c)) * 16 + (← hexValue? d)

/-- Reads what follows an opening quote, up to the closing one. -/
def readParts : SqlText → Option (List StringPart × SqlText)
  | [] => none
  | '"' :: t => some ([], t)
  | '\\' :: 'u' :: a :: b :: c :: d :: t => do
    let n ← unit? a b c d
    let (parts, rest) ← readParts t
    return (.unit n :: parts, rest)
  | '\\' :: c :: t => do
    let c ← escaped? c
    let (parts, rest) ← readParts t
    return (.char c :: parts, rest)
  | c :: t =>
    if c = '\\' ∨ c.toNat < 0x20 then none
    else do
      let (parts, rest) ← readParts t
      return (.char c :: parts, rest)

/-- The text of the parts of a string: units of a surrogate pair make one character, half a pair makes
none. -/
def join? : List StringPart → Option SqlText
  | [] => some []
  | .char c :: parts => (join? parts).map (c :: ·)
  | .unit n :: parts =>
    if n < 0xD800 ∨ 0xDFFF < n then (join? parts).map (Char.ofNat n :: ·)
    else
      match parts with
      | .unit m :: more =>
        if n < 0xDC00 ∧ 0xDC00 ≤ m ∧ m ≤ 0xDFFF then
          (join? more).map (Char.ofNat (0x10000 + (n - 0xD800) * 0x400 + (m - 0xDC00)) :: ·)
        else none
      | _ => none

/-- Reads the content of a string behind its opening quote. -/
def readString (t : SqlText) : Option (Option SqlText × SqlText) :=
  (readParts t).map fun (parts, rest) => (join? parts, rest)

/-! ### Values -/

/-- Reads a number without its sign: no zero before other digits, no power of ten without digits. -/
def readNumber (negative : Bool) : SqlText → Option (Json × SqlText)
  | [] => none
  | c :: t =>
    if c.isDigit then
      let (n, rest) := Numeral.scan (c :: t)
      if n.lacksPowerDigits ∨ (c = '0' ∧ n.whole.length > 1) then none
      else some (.number negative n, rest)
    else none

mutual

/-- Reads a value behind its blanks. -/
def readValue : Nat → SqlText → Option (Json × SqlText)
  | 0, _ => none
  | rounds + 1, t =>
    match t with
    | 'n' :: 'u' :: 'l' :: 'l' :: rest => some (.null, rest)
    | 't' :: 'r' :: 'u' :: 'e' :: rest => some (.bool true, rest)
    | 'f' :: 'a' :: 'l' :: 's' :: 'e' :: rest => some (.bool false, rest)
    | '"' :: rest => (readString rest).map fun (content, rest) => (.string content, rest)
    | '[' :: rest =>
      match skipBlanks rest with
      | ']' :: rest => some (.array [], rest)
      | rest => (readItems rounds rest).map fun (items, rest) => (.array items, rest)
    | '\x7b' :: rest =>
      match skipBlanks rest with
      | '\x7d' :: rest => some (.object [], rest)
      | rest => (readMembers rounds rest).map fun (members, rest) => (.object members, rest)
    | '-' :: rest => readNumber true rest
    | t => readNumber false t

/-- Reads the items of an array and its closing bracket. -/
def readItems : Nat → SqlText → Option (List Json × SqlText)
  | 0, _ => none
  | rounds + 1, t => do
    let (item, rest) ← readValue rounds (skipBlanks t)
    match skipBlanks rest with
    | ',' :: rest =>
      let (items, rest) ← readItems rounds rest
      return (item :: items, rest)
    | ']' :: rest => return ([item], rest)
    | _ => none

/-- Reads the members of an object and its closing brace. -/
def readMembers : Nat → SqlText → Option (List (Option SqlText × Json) × SqlText)
  | 0, _ => none
  | rounds + 1, t =>
    match skipBlanks t with
    | '"' :: rest => do
      let (name, rest) ← readString rest
      match skipBlanks rest with
      | ':' :: rest =>
        let (value, rest) ← readValue rounds (skipBlanks rest)
        match skipBlanks rest with
        | ',' :: rest =>
          let (members, rest) ← readMembers rounds rest
          return ((name, value) :: members, rest)
        | '\x7d' :: rest => return ([(name, value)], rest)
        | _ => none
      | _ => none
    | _ => none

end

/-- Reads a text that is one value with blanks around it. -/
def read? (t : SqlText) : Option Json := do
  let (value, rest) ← readValue (2 * t.length + 1) (skipBlanks t)
  if skipBlanks rest = [] then some value else none

end JetAdapter.Json
