import JetAdapter.Token.Lexeme

/-!
# Lists of lexemes that come from a text

Which lists of lexemes does `lex` answer?  A lexeme *fits* before a rest if a text that starts with its gap
and its spelling and goes on with that rest has it as the first lexeme.  A list is *lexed* if each of its
lexemes fits before the spelling of those behind it and the last one marks the end.  This is a matter of
neighbours only, and it is all there is to it: `lexed_lex` and `Lexed.lex_spell` say that the lexed lists
are the answers of `lex`.  So to know what an edited text lexes to one shows of every lexeme that it
still fits.

`scan_form` lists the scanners; facts about single tokens go by its cases.
-/

namespace JetAdapter.Lexeme

/-! ### Spelling -/

@[simp] theorem spell_nil : spell [] = [] := rfl

@[simp] theorem spell_cons (l : Lexeme) (ls : List Lexeme) :
    spell (l :: ls) = l.gap ++ (l.text ++ spell ls) := by
  simp [spell]

theorem spell_append (ls ms : List Lexeme) : spell (ls ++ ms) = spell ls ++ spell ms :=
  List.flatMap_append

/-! ### Scanners -/

/-- Whether a character closes some kind of quotes. -/
def IsClosing (c : Char) : Prop :=
  c = '\'' ∨ c = '"' ∨ c = '\x60' ∨ c = ']'

/-- The scanner for a text that starts with some character. -/
inductive ScanForm (c : Char) : Prop
  | quoted (closing : Char) (kind : SqlText → Kind) (fault : LexicalFault)
      (closes : IsClosing closing)
      (content : (∀ t, kind t = .string t) ∨ ∀ t, kind t = .identifier t)
      (eq : ∀ t, scan c t = scanQuoted c closing kind fault t)
  | date (first : c = '#') (eq : ∀ t, scan c t = scanDate t)
  | atSign (first : c = '@') (eq : ∀ t, scan c t = scanAt t)
  | number (first : c.isDigit = true) (eq : ∀ t, scan c t = scanNumber (c :: t))
  | word (first : Text.startsWord c = true) (eq : ∀ t, scan c t = scanWord (c :: t))
  | symbol (first : Text.startsWord c = false) (eq : ∀ t, scan c t = scanSymbol c t)

theorem scan_form (c : Char) : ScanForm c := by
  by_cases h1 : c = '\''
  · subst h1
    exact .quoted '\'' .string .unterminatedString (.inl rfl) (.inl fun _ => rfl) fun _ => rfl
  by_cases h2 : c = '"'
  · subst h2
    exact .quoted '"' .identifier .unterminatedIdentifier (.inr (.inl rfl)) (.inr fun _ => rfl)
      fun _ => rfl
  by_cases h3 : c = '\x60'
  · subst h3
    exact .quoted '\x60' .identifier .unterminatedIdentifier (.inr (.inr (.inl rfl)))
      (.inr fun _ => rfl) fun _ => rfl
  by_cases h4 : c = '['
  · subst h4
    exact .quoted ']' .identifier .unterminatedIdentifier (.inr (.inr (.inr rfl)))
      (.inr fun _ => rfl) fun _ => rfl
  by_cases h5 : c = '#'
  · subst h5
    exact .date rfl fun _ => rfl
  by_cases h6 : c = '@'
  · subst h6
    exact .atSign rfl fun _ => rfl
  have heq : ∀ t, scan c t = if c.isDigit then scanNumber (c :: t)
      else if Text.startsWord c then scanWord (c :: t) else scanSymbol c t := by
    intro t
    unfold scan
    split <;> first | contradiction | rfl
  by_cases hd : c.isDigit
  · exact .number hd fun t => by rw [heq, if_pos hd]
  by_cases hw : Text.startsWord c
  · exact .word hw fun t => by rw [heq, if_neg hd, if_pos hw]
  · exact .symbol (by simpa using hw) fun t => by rw [heq, if_neg hd, if_neg hw]

/-! ### Fitting -/

/-- Whether a lexeme is what a text starts with that goes on with a rest behind it. -/
def Fits (l : Lexeme) (rest : SqlText) : Prop :=
  scanGap .blanks (l.gap ++ (l.text ++ rest)) = (l.gap, l.text ++ rest) ∧
    ∃ c w, l.text = c :: w ∧ scan c (w ++ rest) = ⟨l.kind, l.text, rest⟩

/-- Whether a lexeme is all that a text without tokens consists of. -/
def Ends (l : Lexeme) : Prop :=
  l.kind = .eof ∧ l.text = [] ∧ scanGap .blanks l.gap = (l.gap, [])

/-- Whether a list of lexemes is what its spelling is cut into. -/
inductive Lexed : List Lexeme → Prop
  | last {l : Lexeme} (ends : l.Ends) : Lexed [l]
  | cons {l : Lexeme} {ls : List Lexeme} (fits : l.Fits (spell ls)) (rest : Lexed ls) :
      Lexed (l :: ls)

theorem lexed_lex (t : SqlText) : Lexed (lex t) := by
  fun_induction lex t with
  | case1 t gap h =>
    have hg := scanGap_text .blanks t
    rw [h, List.append_nil] at hg
    refine .last ⟨rfl, rfl, ?_⟩
    rw [← h]
    exact congrArg (scanGap .blanks) hg
  | case2 t gap c r h ih =>
    have hg := scanGap_text .blanks t
    have hs := scan_text c r
    rw [h] at hg
    refine .cons ⟨?_, ?_⟩ ih
    · show scanGap .blanks (gap ++ ((scan c r).text ++ spell (lex (scan c r).rest)))
        = (gap, (scan c r).text ++ spell (lex (scan c r).rest))
      rw [spell_lex, hs, ← h]
      exact congrArg (scanGap .blanks) hg
    · show ∃ d w, (scan c r).text = d :: w ∧ scan d (w ++ spell (lex (scan c r).rest))
        = ⟨(scan c r).kind, (scan c r).text, spell (lex (scan c r).rest)⟩
      rw [spell_lex]
      cases ht : (scan c r).text with
      | nil => exact absurd ht (scan_text_ne_nil c r)
      | cons d w =>
        rw [ht, List.cons_append] at hs
        obtain ⟨rfl, hw⟩ := List.cons.inj hs
        refine ⟨d, w, rfl, ?_⟩
        rw [hw, ← ht]

theorem lex_of_scanGap {t gap r : SqlText} {c : Char} (h : scanGap .blanks t = (gap, c :: r)) :
    lex t = ⟨(scan c r).kind, gap, (scan c r).text⟩ :: lex (scan c r).rest := by
  rw [lex]
  split
  · next gap' he =>
    rw [h] at he
    cases he
  · next gap' d r' he =>
    rw [h] at he
    cases he
    rfl

/-- Text that starts with a fitting lexeme has it as the first one. -/
theorem Fits.lex_eq {l : Lexeme} {rest : SqlText} (h : l.Fits rest) :
    lex (l.gap ++ (l.text ++ rest)) = l :: lex rest := by
  obtain ⟨hg, c, w, hl, hs⟩ := h
  rw [hl, List.cons_append] at hg ⊢
  rw [lex_of_scanGap hg, hs]

theorem Ends.lex_eq {l : Lexeme} (h : l.Ends) : lex (l.gap ++ (l.text ++ [])) = [l] := by
  obtain ⟨kind, gap, text⟩ := l
  obtain ⟨hk, ht, hg⟩ := h
  simp only at hk ht hg
  subst hk ht
  rw [List.append_nil, List.append_nil, lex]
  split
  · next gap' he =>
    rw [hg] at he
    rw [(Prod.mk.inj he).1]
  · next gap' c r he =>
    rw [hg] at he
    cases he

theorem lex_nil : lex [] = [⟨.eof, [], []⟩] :=
  Ends.lex_eq (l := ⟨.eof, [], []⟩) ⟨rfl, rfl, rfl⟩

/-- A lexed list is what its spelling is cut into. -/
theorem Lexed.lex_spell {ls : List Lexeme} (h : Lexed ls) : lex (spell ls) = ls := by
  induction h with
  | last ends => rw [spell_cons, spell_nil, ends.lex_eq]
  | cons fits rest ih => rw [spell_cons, fits.lex_eq, ih]

theorem Lexed.of_append {ls ms : List Lexeme} (h : Lexed (ls ++ ms)) (hms : ms ≠ []) : Lexed ms := by
  induction ls with
  | nil => exact h
  | cons l ls ih =>
    refine ih ?_
    rw [List.cons_append] at h
    generalize hrest : ls ++ ms = rest at h
    cases h with
    | last ends => exact absurd (List.append_eq_nil_iff.1 hrest).2 hms
    | cons fits rest => exact rest

/-! ### The spelling of markers -/

theorem Ends.isMarker {l : Lexeme} (h : l.Ends) : l.kind.isMarker = false := by
  rw [h.1]
  rfl

theorem numberKind_isMarker (n : Numeral) : (numberKind n).isMarker = false := by
  rw [numberKind]
  split
  · rfl
  · split <;> rfl

theorem wordKind_isMarker (w : SqlText) : (wordKind w).isMarker = false := by
  rw [wordKind]
  split <;> rfl

/-- Only `?` and names behind an `@` are markers. -/
theorem eq_of_scan_isMarker {c : Char} {t : SqlText} (h : (scan c t).kind.isMarker = true) :
    scan c t = ⟨.placeholder, ['?'], t⟩ ∨ ∃ name, name ≠ [] ∧
      name = t.takeWhile Text.continuesWord ∧
      scan c t = ⟨.named name, '@' :: name, t.dropWhile Text.continuesWord⟩ := by
  cases scan_form c with
  | quoted closing kind fault closes content eq =>
    rw [eq] at h
    rw [scanQuoted] at h
    split at h
    · next s rest hr =>
      rcases content with hc | hc
      · rw [hc] at h
        cases h
      · rw [hc] at h
        cases h
    · cases h
  | date first eq =>
    rw [eq] at h
    rw [scanDate] at h
    split at h <;> cases h
  | atSign first eq =>
    rw [eq] at h ⊢
    unfold scanAt at h ⊢
    split at h
    · simp only at h
      split at h <;> cases h
    · next hn =>
      simp only at h
      split at h
      · cases h
      · next hne =>
        refine .inr ⟨_, hne, rfl, ?_⟩
        simp only [if_neg hne]
  | number first eq =>
    rw [eq] at h
    exact absurd h (by simp [scanNumber, numberKind_isMarker])
  | word first eq =>
    rw [eq] at h
    exact absurd h (by simp [scanWord, wordKind_isMarker])
  | symbol first eq =>
    rw [eq] at h ⊢
    unfold scanSymbol at h ⊢
    split at h
    all_goals first | cases h | skip
    unfold charKind at h ⊢
    split at h
    all_goals first | exact .inl rfl | cases h

end JetAdapter.Lexeme
