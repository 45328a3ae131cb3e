import JetAdapter.Dialect.Basic
import JetAdapter.Proofs.Lookahead

/-!
# Quoted names

A dialect writes a name between its quotes as it stands, and a closing quote that is not doubled ends what is
read.  So a quoted name is read as one identifier with that name just if no closing quote occurs in it
(`kinds_quote_iff`); a name that holds one escapes its quotes or is read as another name.
-/

namespace JetAdapter

namespace Text

variable {close : Char} {t rest : SqlText}

theorem double_eq_self (h : close ∉ t) : double close t = t := by
  induction t with
  | nil => rfl
  | cons c t ih =>
    have hc : c ≠ close := fun hc => h (by simp [hc])
    rw [double, if_neg hc, ih fun ht => h (List.mem_cons_of_mem _ ht)]

theorem length_le_double (close : Char) (t : SqlText) : t.length ≤ (double close t).length := by
  induction t with
  | nil => exact Nat.le_refl _
  | cons c t ih =>
    rw [double]
    split
    · simp only [List.length_cons]
      omega
    · simp only [List.length_cons]
      omega

/-- Doubling makes a text longer if there is something to double. -/
theorem not_mem_of_double_eq_self (h : double close t = t) : close ∉ t := by
  induction t with
  | nil => exact List.not_mem_nil
  | cons c t ih =>
    rw [double] at h
    split at h
    · have hlong := length_le_double close t
      have := congrArg List.length h
      simp only [List.length_cons] at this
      omega
    · next hc =>
      intro hmem
      rcases List.mem_cons.1 hmem with rfl | hmem
      · exact hc rfl
      · exact ih (List.cons.inj h).2 hmem

/-- A content between quotes is read back just if it holds no closing quote, and then all of it is read. -/
theorem readQuoted_concat_iff :
    readQuoted close (t ++ [close]) = some (t, rest) ↔ close ∉ t ∧ rest = [] := by
  constructor
  · intro h
    have heq := (eq_of_readQuoted h).1
    have hlong := length_le_double close t
    have hlength := congrArg List.length heq
    simp only [List.length_append, List.length_cons, List.length_nil] at hlength
    obtain rfl : rest = [] := List.length_eq_zero_iff.1 (by omega)
    exact ⟨not_mem_of_double_eq_self (List.append_cancel_right heq).symm, rfl⟩
  · rintro ⟨h, rfl⟩
    have hread := readQuoted_double close t [] (by simp)
    rwa [double_eq_self h] at hread

end Text

namespace Lexeme

/-- A name between quotes is the only token, with that name, just if it holds no closing quote. -/
theorem kinds_quoted_iff {opening closing : Char} {fault : LexicalFault} {name : SqlText}
    (hbare : ∀ t, Bare (opening :: t))
    (hscan : ∀ t, scan opening t = scanQuoted opening closing .identifier fault t) :
    (lex (opening :: (name ++ [closing]))).map kind = [.identifier name, .eof] ↔ closing ∉ name := by
  rw [lex_of_scanGap (hbare _), hscan, scanQuoted]
  split
  · next content rest hread =>
    constructor
    · intro h
      obtain ⟨rfl, -⟩ : content = name ∧ (lex rest).map kind = [.eof] := by simpa using h
      exact (Text.readQuoted_concat_iff.1 hread).1
    · intro h
      rw [Text.readQuoted_concat_iff.2 ⟨h, rfl⟩] at hread
      obtain ⟨rfl, rfl⟩ : name = content ∧ [] = rest := by simpa using hread
      rw [lex_nil]
      rfl
  · next hread =>
    refine ⟨fun h => ?_, fun h => ?_⟩
    · cases (List.cons.inj h).1
    · rw [Text.readQuoted_concat_iff.2 ⟨h, rfl⟩] at hread
      cases hread

end Lexeme

open Dialect (generic jet)

namespace Lexeme

theorem kinds_quote_jet_iff (features : JetFeatures) (name : SqlText) :
    (lex ((jet features).quote name)).map kind = [.identifier name, .eof] ↔ ']' ∉ name := by
  have hbare : ∀ t, Bare ('[' :: t) := fun _ => scanGap_token (by decide) (by simp) (by simp)
  exact kinds_quoted_iff hbare fun _ => rfl

theorem kinds_quote_generic_iff (name : SqlText) :
    (lex (generic.quote name)).map kind = [.identifier name, .eof] ↔ '"' ∉ name := by
  have hbare : ∀ t, Bare ('"' :: t) := fun _ => scanGap_token (by decide) (by simp) (by simp)
  exact kinds_quoted_iff hbare fun _ => rfl

end Lexeme

/-- **Quoted names.**  In both dialects a name between quotes is read as one identifier of that name, and nothing
behind it, just if the closing quote of the dialect does not occur in it. -/
theorem kinds_quote_iff (features : JetFeatures) (name : SqlText) :
    ((lex ((jet features).quote name)).map Lexeme.kind = [.identifier name, .eof] ↔ ']' ∉ name) ∧
    ((lex (generic.quote name)).map Lexeme.kind = [.identifier name, .eof] ↔ '"' ∉ name) :=
  ⟨Lexeme.kinds_quote_jet_iff features name, Lexeme.kinds_quote_generic_iff name⟩

/-- The name `a]b` is not read back from between its quotes: the first bracket ends it. -/
theorem not_kinds_quote_bracket :
    (lex ((jet .default).quote "a]b".toList)).map Lexeme.kind ≠ [.identifier "a]b".toList, .eof] := by
  rw [ne_eq, Lexeme.kinds_quote_jet_iff]
  decide

end JetAdapter
