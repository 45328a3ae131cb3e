import JetAdapter.Json.Basic

/-!
# Writing JSON

The compact form has no blanks.  The pretty form has a line for each item and member, indented by two
blanks for each level; empty arrays and objects stay on their line.
-/

namespace JetAdapter.Json

/-- A character inside quotes: quotes, backslashes and control characters are escaped. -/
def escape (c : Char) : SqlText :=
  if c = '"' then ['\\', '"']
  else if c = '\\' then ['\\', '\\']
  else if c = '\x08' then ['\\', 'b']
  else if c = '\x0c' then ['\\', 'f']
  else if c = '\n' then ['\\', 'n']
  else if c = '\r' then ['\\', 'r']
  else if c = '\t' then ['\\', 't']
  else if c.toNat < 0x20 then
    ['\\', 'u', '0', '0', Nat.digitChar (c.toNat / 16), Nat.digitChar (c.toNat % 16)]
  else [c]

/-- A string in quotes. -/
def quote (t : SqlText) : SqlText :=
  '"' :: (t.flatMap escape ++ ['"'])

/-- A value that has no parts; other values have none of this text. -/
def atomText : Json → SqlText
  | .null => "null".toList
  | .bool b => if b then "true".toList else "false".toList
  | .number negative n => n.signedText negative
  | .string content => quote (content.getD [])
  | _ => []

mutual

/-- The form without blanks. -/
def compact : Json → SqlText
  | .array items => '[' :: (compactItems items ++ [']'])
  | .object members => '\x7b' :: (compactMembers members ++ ['\x7d'])
  | atom => atomText atom

/-- The items of an array, with commas between them. -/
def compactItems : List Json → SqlText
  | [] => []
  | [item] => compact item
  | item :: items => compact item ++ ',' :: compactItems items

/-- The members of an object, with commas between them. -/
def compactMembers : List (Option SqlText × Json) → SqlText
  | [] => []
  | [(name, value)] => quote (name.getD []) ++ ':' :: compact value
  | (name, value) :: members =>
    quote (name.getD []) ++ ':' :: (compact value ++ ',' :: compactMembers members)

end

/-- A new line, indented to a level. -/
def newline (level : Nat) : SqlText :=
  '\n' :: List.replicate (2 * level) ' '

mutual

/-- The form with a line for each item and member; the value starts at a level. -/
def prettyAt (level : Nat) : Json → SqlText
  | .array [] => ['[', ']']
  | .array items => '[' :: (prettyItems (level + 1) items ++ newline level ++ [']'])
  | .object [] => ['\x7b', '\x7d']
  | .object members => '\x7b' :: (prettyMembers (level + 1) members ++ newline level ++ ['\x7d'])
  | atom => atomText atom

/-- The items of an array, each on a line of its own. -/
def prettyItems (level : Nat) : List Json → SqlText
  | [] => []
  | [item] => newline level ++ prettyAt level item
  | item :: items => newline level ++ prettyAt level item ++ ',' :: prettyItems level items

/-- The members of an object, each on a line of its own. -/
def prettyMembers (level : Nat) : List (Option SqlText × Json) → SqlText
  | [] => []
  | [(name, value)] => newline level ++ quote (name.getD []) ++ ": ".toList ++ prettyAt level value
  | (name, value) :: members =>
    newline level ++ quote (name.getD []) ++ ": ".toList ++ prettyAt level value
      ++ ',' :: prettyMembers level members

end

/-- The form with a line for each item and member. -/
def pretty (j : Json) : SqlText :=
  prettyAt 0 j

end JetAdapter.Json
