import JetAdapter.Text.Basic

/-!
# Quoted texts

Inside quotes the closing quote is written twice.  `double` writes a content that way, `readQuoted`
reads one back up to the first closing quote that stands alone.  The two are inverse:
`readQuoted_double` says that what was written is read back, whatever follows it (a further closing
quote apart), and `eq_of_readQuoted` that nothing else is read.
-/

namespace JetAdapter.Text

/-- Writes every closing quote of a content twice. -/
def double (close : Char) : SqlText → SqlText
  | [] => []
  | c :: t => if c = close then c :: c :: double close t else c :: double close t

/-- Reads a content up to the first closing quote that is not doubled, and answers what comes after
that quote.  There is no content where such a quote is missing. -/
def readQuoted (close : Char) : SqlText → Option (SqlText × SqlText)
  | [] => none
  | [c] => if c = close then some ([], []) else none
  | c :: d :: t =>
    if c = close then
      if d = close then (readQuoted close t).map fun (content, rest) => (close :: content, rest)
      else some ([], d :: t)
    else (readQuoted close (d :: t)).map fun (content, rest) => (c :: content, rest)

/-- What has been written is read back, as long as no further closing quote follows. -/
theorem readQuoted_double (close : Char) (content rest : SqlText) (h : rest.head? ≠ some close) :
    readQuoted close (double close content ++ close :: rest) = some (content, rest) := by
  induction content with
  | nil =>
    cases rest with
    | nil => simp [double, readQuoted]
    | cons d r =>
      have : d ≠ close := by simpa using h
      simp [double, readQuoted, this]
  | cons c content ih =>
    by_cases hc : c = close
    · subst hc
      simp [double, readQuoted, ih]
    · rw [double, if_neg hc, List.cons_append]
      cases hq : double close content ++ close :: rest with
      | nil => simp at hq
      | cons d r => rw [readQuoted, if_neg hc, ← hq, ih]; rfl

/-- Nothing is lost by reading: the text is the content written back, a closing quote and the
rest, which starts with no further closing quote. -/
theorem eq_of_readQuoted {close : Char} {t content rest : SqlText}
    (h : readQuoted close t = some (content, rest)) :
    t = double close content ++ close :: rest ∧ rest.head? ≠ some close := by
  fun_induction readQuoted close t generalizing content rest with
  | case1 => simp at h
  | case2 =>
    obtain ⟨rfl, rfl⟩ : [] = content ∧ [] = rest := by simpa using h
    simp [double]
  | case3 => simp at h
  | case4 t ih =>
    obtain ⟨⟨u, r⟩, hu, he⟩ := Option.map_eq_some_iff.1 h
    obtain ⟨rfl, rfl⟩ : close :: u = content ∧ r = rest := by simpa using he
    obtain ⟨rfl, hr⟩ := ih hu
    simp [double, hr]
  | case5 d t hc =>
    obtain ⟨rfl, rfl⟩ : [] = content ∧ d :: t = rest := by simpa using h
    simpa [double] using hc
  | case6 c d t hc ih =>
    obtain ⟨⟨u, r⟩, hu, he⟩ := Option.map_eq_some_iff.1 h
    obtain ⟨rfl, rfl⟩ : c :: u = content ∧ r = rest := by simpa using he
    obtain ⟨ht, hr⟩ := ih hu
    simp [double, hc, hr, ht]

end JetAdapter.Text
