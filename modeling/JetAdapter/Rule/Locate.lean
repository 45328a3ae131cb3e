import JetAdapter.Query.Edit

/-!
# Searching in texts

`LOCATE(needle, haystack)` is `InStr(haystack, needle)` in Jet, and a start comes first there.  The last
call of a text holds no other one, so its arguments can be moved as they are; the text is looked at again
after every call.
-/

namespace JetAdapter.Locate

/-- The call of `InStr` for a call with these arguments. -/
def replacement? : List (List Token) → Option SqlText
  | [needle, haystack] =>
    if needle = [] ∨ haystack = [] then none
    else some ("InStr(".toList
      ++ Text.joinWith [',', ' '] [Token.spell haystack, Token.spell needle] ++ [')'])
  | [needle, haystack, start] =>
    if needle = [] ∨ haystack = [] ∨ start = [] then none
    else some ("InStr(".toList
      ++ Text.joinWith [',', ' '] [Token.spell start, Token.spell haystack, Token.spell needle]
      ++ [')'])
  | _ => none

/-- The edit of the last call. -/
def step (q : Query) : Except SqlError (Option Edit) :=
  match (q.calls fun t => t.spells "locate".toList).getLast? with
  | none => .ok none
  | some c =>
    match replacement? c.arguments with
    | some text => .ok (some ⟨⟨c.name.start, c.closing.stop⟩, text⟩)
    | none => .error (.unsupportedConstruct (.locateArguments (Token.spell c.tokens)))

/-- Makes calls of `InStr` of all calls of `LOCATE`. -/
def convert (text : SqlText) : Except SqlError SqlText :=
  Query.exhaust step text

end JetAdapter.Locate
