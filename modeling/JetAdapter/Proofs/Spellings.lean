import JetAdapter.Proofs.Partition

/-!
# Spellings stand for themselves

What a token is depends on its own spelling only: cut out and set between blanks, or alone, every token is read
as what it was (`lex_respaced`).  That is not plain to see, since every scanner looks at what follows.  But what
it looks for there is a character that goes on with the token, and a blank goes on with none
(`Fits.before_stop`).

Unsound tokens are no exception.  Those that miss a closing quote reach to the end of the text, so no blank comes
behind them, and the other ones miss a letter or a digit, which a blank is not.
-/

namespace JetAdapter

theorem Text.joinWith_cons (separator t : SqlText) (ts : List SqlText) :
    joinWith separator (t :: ts) = t ++ ts.flatMap fun u => separator ++ u := by
  induction ts generalizing t with
  | nil => simp [joinWith]
  | cons u ts ih =>
    have hrest := ih u
    rw [joinWith] at hrest ⊢
    rw [List.intercalate_cons_cons, hrest, List.flatMap_cons, List.append_assoc, List.append_assoc]

namespace Lexeme

variable {l : Lexeme} {ls : List Lexeme} {rest rest' : SqlText}

/-! ### In front of a blank or the end -/

/-- Any lexeme, sound or not, fits before a text that goes on with no token, unless it reaches to the end
because something is missing in it. -/
theorem Fits.before_stop (h : l.Fits rest) (hstop : Text.Stops rest') (hat : rest'.head? ≠ some '@')
    (hend : rest = [] → rest' = []) : l.Fits rest' :=
  h.before (.of_stops hstop) hend fun _ => hat

/-- A lexeme with one blank as its gap. -/
def spaced (l : Lexeme) : Lexeme :=
  { l with gap := [' '] }

theorem Fits.spaced (h : l.Fits rest) : l.spaced.Fits rest := by
  refine h.regap ?_
  have hbare : scanGap .blanks (l.text ++ rest) = ([], l.text ++ rest) := h.bare
  rw [List.singleton_append, scanGap_blank (by decide), hbare]

/-! ### Whole lists -/

/-- The lexemes that are tokens. -/
def tokens (ls : List Lexeme) : List Lexeme :=
  ls.filter fun l => l.kind ≠ .eof

theorem tokens_cons_of_fits (h : l.Fits rest) : tokens (l :: ls) = l :: tokens ls := by
  rw [tokens, List.filter_cons_of_pos (by simpa using h.kind_ne_eof)]
  rfl

theorem tokens_of_ends (h : l.Ends) : tokens [l] = [] := by
  rw [tokens, List.filter_cons_of_neg (by simp [h.1])]
  rfl

/-- Where a lexed list spells nothing, it holds no token. -/
theorem Lexed.tokens_eq_nil (h : Lexed ls) (hspell : spell ls = []) : tokens ls = [] := by
  cases h with
  | last ends => exact tokens_of_ends ends
  | @cons l ls fits rest =>
    rw [spell_cons, List.append_eq_nil_iff] at hspell
    exact absurd hspell.2 fits.ne_nil

/-- The tokens of a lexed list, each behind one blank, and the end. -/
def spacedTokens (ls : List Lexeme) : List Lexeme :=
  (tokens ls).map spaced ++ [⟨.eof, [], []⟩]

theorem spell_spacedTokens (ls : List Lexeme) :
    spell (spacedTokens ls) = (tokens ls).flatMap fun l => ' ' :: l.text := by
  rw [spacedTokens, spell, List.flatMap_append, List.flatMap_map]
  simp [spaced]

/-- A lexeme fits before the tokens that were behind it, now each behind one blank. -/
theorem Fits.before_spacedTokens (h : l.Fits (spell ls)) (hls : Lexed ls) :
    l.Fits (spell (spacedTokens ls)) := by
  have hhead : spell (spacedTokens ls) = [] ∨ ∃ t, spell (spacedTokens ls) = ' ' :: t := by
    rw [spell_spacedTokens]
    cases tokens ls with
    | nil => exact .inl rfl
    | cons m ms => exact .inr ⟨_, rfl⟩
  refine h.before_stop ?_ ?_ fun hnil => ?_
  · rcases hhead with hh | ⟨t, hh⟩
    · rw [hh]
      rfl
    · rw [hh]
      exact (by decide : Text.isStop ' ' = true)
  · rcases hhead with hh | ⟨t, hh⟩
    · simp [hh]
    · simp [hh]
  · rw [spell_spacedTokens, hls.tokens_eq_nil hnil]
    rfl

theorem Lexed.spacedTokens (h : Lexed ls) : Lexed (spacedTokens ls) := by
  induction h with
  | @last l ends =>
    rw [Lexeme.spacedTokens, tokens_of_ends ends]
    exact .last ⟨rfl, rfl, rfl⟩
  | @cons l ls fits rest ih =>
    rw [Lexeme.spacedTokens, tokens_cons_of_fits fits]
    exact .cons (fits.before_spacedTokens rest).spaced ih

/-- The tokens of a lexed list, one blank between each two, are read as what they were. -/
theorem Lexed.lex_joinWith (h : Lexed ls) :
    (lex (Text.joinWith [' '] ((tokens ls).map text))).map kind = (tokens ls).map kind ++ [.eof] := by
  cases h with
  | @last l ends =>
    rw [tokens_of_ends ends, List.map_nil, Text.joinWith, List.intercalate_nil, lex_nil]
    rfl
  | @cons l ls fits rest =>
    -- The first token stands at the front, so it alone has no gap.
    have hspell : Text.joinWith [' '] ((tokens (l :: ls)).map text)
        = spell ({ l with gap := [] } :: Lexeme.spacedTokens ls) := by
      rw [spell_cons, spell_spacedTokens, tokens_cons_of_fits fits, List.map_cons, Text.joinWith_cons,
        List.flatMap_map]
      rfl
    have hfirst := (fits.before_spacedTokens rest).withoutGap
    rw [hspell, (Lexed.cons hfirst rest.spacedTokens).lex_spell, tokens_cons_of_fits fits,
      Lexeme.spacedTokens]
    simp [spaced, Function.comp_def]

/-- A token of a lexed list stands for itself also alone. -/
theorem Lexed.lex_text (h : Lexed ls) :
    ∀ l ∈ tokens ls, lex l.text = [⟨l.kind, [], l.text⟩, ⟨.eof, [], []⟩] := by
  induction h with
  | last ends =>
    rw [tokens_of_ends ends]
    exact nofun
  | @cons l ls fits rest ih =>
    rw [tokens_cons_of_fits fits, List.forall_mem_cons]
    refine ⟨?_, ih⟩
    have halone : l.Fits [] := fits.before_stop rfl (by simp) fun _ => rfl
    have hlexed : Lexed [{ l with gap := [] }, ⟨.eof, [], []⟩] :=
      .cons halone.withoutGap (.last ⟨rfl, rfl, rfl⟩)
    simpa using hlexed.lex_spell

end Lexeme

/-- **Spellings stand for themselves.**  The spellings of the tokens of a text, with one blank between each two,
are read as tokens of the same kinds, unsound ones included, and each spelling alone is read as its token. -/
theorem lex_respaced (t : SqlText) :
    (lex (Text.joinWith [' '] ((Lexeme.tokens (lex t)).map Lexeme.text))).map Lexeme.kind
      = (lex t).map Lexeme.kind ∧
    ∀ l ∈ Lexeme.tokens (lex t), lex l.text = [⟨l.kind, [], l.text⟩, ⟨.eof, [], []⟩] := by
  have hlexed := Lexeme.lexed_lex t
  refine ⟨?_, hlexed.lex_text⟩
  rw [hlexed.lex_joinWith]
  obtain ⟨front, last, hls, hkind, -, hfront⟩ := hlexed.eq_concat
  have htokens : Lexeme.tokens (lex t) = front := by
    rw [hls, Lexeme.tokens, List.filter_append, List.filter_cons_of_neg (by simp [hkind]),
      List.filter_eq_self.2 fun l hl => by simpa using (hfront l hl).1]
    simp
  rw [htokens, hls, List.map_append, List.map_singleton, hkind]

end JetAdapter
