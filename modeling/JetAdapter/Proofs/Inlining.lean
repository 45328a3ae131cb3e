import JetAdapter.Proofs.Lookahead
import JetAdapter.Token.Span
import JetAdapter.Value

/-!
# Texts in literals

A text that is written into SQL stands between quotes, and the quotes in it are doubled.  Whatever it holds (quotes,
markers, the openings of comments) it is read as one string, and the string is the text: nothing of it can get out of the
literal.  What follows the literal is read as it would be by itself, since a literal can only go on with a further
quote (`tokenize_inlineText`).
-/

namespace JetAdapter

/-! ### Reading up to the closing quote -/

namespace Text

/-- A content that was written between quotes is read back if and only if no further quote follows: that one would be
taken for the second of two. -/
theorem readQuoted_double_iff (close : Char) (content rest : SqlText) :
    readQuoted close (double close content ++ close :: rest) = some (content, rest) ↔ rest.head? ≠ some close := by
  constructor
  · intro h
    exact (eq_of_readQuoted h).2
  · intro h
    exact readQuoted_double close content rest h

end Text

/-! ### Tokens further on -/

/-- The lexeme so many bytes further on. -/
def PlacedLexeme.moved (n : Nat) (l : PlacedLexeme) : PlacedLexeme :=
  ⟨l.toLexeme, l.start + n⟩

@[simp] theorem PlacedLexeme.span_moved (n : Nat) (l : PlacedLexeme) :
    (l.moved n).span = ⟨l.span.start + n, l.span.stop + n⟩ := by
  simp only [moved, span, stop]
  congr 1
  omega

namespace Lexeme

theorem map_toLexeme_placedFrom (offset : Nat) (ls : List Lexeme) :
    (placedFrom offset ls).map (·.toLexeme) = ls := by
  induction ls generalizing offset with
  | nil => rfl
  | cons l ls ih => rw [placedFrom, List.map_cons, ih]

theorem placedFrom_add (n offset : Nat) (ls : List Lexeme) :
    placedFrom (offset + n) ls = (placedFrom offset ls).map (.moved n) := by
  induction ls generalizing offset with
  | nil => rfl
  | cons l ls ih =>
    have hstart : offset + n + Text.byteSize l.gap = offset + Text.byteSize l.gap + n := by omega
    have hstop : offset + Text.byteSize l.gap + n + Text.byteSize l.text
        = offset + Text.byteSize l.gap + Text.byteSize l.text + n := by omega
    rw [placedFrom, placedFrom, List.map_cons, hstart, hstop, ih]
    rfl

/-! ### The literal -/

/-- The literal of a text as one token. -/
def literal (s : SqlText) : Lexeme :=
  ⟨.string s, [], SqlValue.inlineText (.text s)⟩

/-- Whatever was written into a literal, the literal is the first token just if no further quote follows it. -/
theorem lex_inlineText_append_iff (s rest : SqlText) :
    lex (SqlValue.inlineText (.text s) ++ rest) = literal s :: lex rest ↔ rest.head? ≠ some '\'' := by
  have hbare : ∀ t, Bare ('\'' :: t) := fun _ => scanGap_token (by decide) (by simp) (by simp)
  have htext : SqlValue.inlineText (.text s) ++ rest = '\'' :: (Text.double '\'' s ++ '\'' :: rest) := by
    simp [SqlValue.inlineText]
  have hscan : ∀ t, scan '\'' t = scanQuoted '\'' '\'' .string .unterminatedString t := fun _ => rfl
  rw [htext, lex_of_scanGap (hbare _), hscan, ← Text.readQuoted_double_iff '\'' s, scanQuoted]
  constructor
  · intro h
    cases hread : Text.readQuoted '\'' (Text.double '\'' s ++ '\'' :: rest) with
    | none =>
      rw [hread] at h
      cases congrArg Lexeme.kind (List.cons.inj h).1
    | some found =>
      obtain ⟨content, after⟩ := found
      rw [hread] at h
      obtain rfl : content = s := Kind.string.inj (congrArg Lexeme.kind (List.cons.inj h).1)
      have hafter := List.append_cancel_left (Text.eq_of_readQuoted hread).1
      rw [(List.cons.inj hafter).2]
  · intro h
    rw [h]
    rfl

end Lexeme

open Lexeme (literal placedFrom)

/-- **Nothing escapes from a literal.**  Written into SQL, a text is read as one string, which is the text, and then
comes the end.  With something behind the literal the string is followed by the tokens of that, so many bytes further
on as the literal is long, and this is so for everything that does not start with a quote. -/
theorem tokenize_inlineText (s : SqlText) :
    tokenize (SqlValue.inlineText (.text s))
      = [⟨literal s, 0⟩, ⟨⟨.eof, [], []⟩, Text.byteSize (SqlValue.inlineText (.text s))⟩] ∧
    ∀ rest, tokenize (SqlValue.inlineText (.text s) ++ rest)
      = ⟨literal s, 0⟩ :: (tokenize rest).map (.moved (Text.byteSize (SqlValue.inlineText (.text s)))) ↔
        rest.head? ≠ some '\'' := by
  have hplaced : ∀ ls, placedFrom 0 (literal s :: ls)
      = ⟨literal s, 0⟩ :: (placedFrom 0 ls).map (.moved (Text.byteSize (SqlValue.inlineText (.text s)))) := by
    intro ls
    rw [← Lexeme.placedFrom_add, placedFrom]
    simp [literal]
  constructor
  · have hlex := (Lexeme.lex_inlineText_append_iff s []).2 (by simp)
    rw [List.append_nil] at hlex
    rw [tokenize, hlex, Lexeme.lex_nil, hplaced]
    simp [placedFrom, PlacedLexeme.moved]
  · intro rest
    rw [← Lexeme.lex_inlineText_append_iff s, tokenize, tokenize, ← hplaced]
    constructor
    · intro h
      have hlexemes := congrArg (List.map (·.toLexeme)) h
      rwa [Lexeme.map_toLexeme_placedFrom, Lexeme.map_toLexeme_placedFrom] at hlexemes
    · intro h
      rw [h]

end JetAdapter
