import JetAdapter.Proofs.Lookahead
import JetAdapter.Token.Span

/-!
# Tokens and gaps make up a text

The places of tokens cut a text into tokens and gaps (`tokenize_partition`): the tokens come one behind the
other, each on its own bytes and on at least one, only the last one marks the end, and it stands behind the
last byte.  What is left between them is a gap before each token, and a gap is nothing but blanks and comments
(`Lexeme.Separates`) also when it stands alone (`Lexeme.lex_eq_end_iff`).

`Lexeme.scanGap` looks ahead by one character, so that a gap alone is a gap is not plain to see: a cut gap must
not end inside a comment, or with one half of what opens one.
-/

namespace JetAdapter

/-- The text between two places; there is none if one of them lies inside a character or past the end. -/
def Text.between (start stop : Nat) (t : SqlText) : Option SqlText :=
  (cutAt start t).bind fun (_, fromStart) => (cutAt (stop - start) fromStart).map Prod.fst

theorem Text.between_append (before inside after : SqlText) :
    between (byteSize before) (byteSize before + byteSize inside) (before ++ (inside ++ after))
      = some inside := by
  rw [between, cutAt_append]
  simp only [Option.bind_some, Nat.add_sub_cancel_left, cutAt_append, Option.map_some]

namespace Lexeme

variable {l : Lexeme} {ls : List Lexeme} {rest before : SqlText} {offset : Nat}

/-! ### Gaps alone -/

/-- A gap before a token is a gap also when it stands alone. -/
theorem Fits.ends_gap (h : l.Fits rest) : Ends ⟨.eof, l.gap, []⟩ := by
  refine ⟨rfl, rfl, ?_⟩
  have hbare := scanGap_append_bare h.1 h.ne_nil (show Bare [] from rfl)
  rwa [List.append_nil] at hbare

theorem Lexed.ends_gap (h : Lexed ls) : ∀ l ∈ ls, Ends ⟨.eof, l.gap, []⟩ := by
  induction h with
  | last ends =>
    intro l hl
    obtain rfl := List.mem_singleton.1 hl
    exact ⟨rfl, rfl, ends.2.2⟩
  | cons fits rest ih =>
    intro l hl
    rcases List.mem_cons.1 hl with rfl | hl
    · exact fits.ends_gap
    · exact ih l hl

/-- What a gap that stands alone is cut into. -/
theorem Ends.lex_gap {gap : SqlText} (h : Ends ⟨.eof, gap, []⟩) : lex gap = [⟨.eof, gap, []⟩] := by
  have := h.lex_eq
  rwa [List.append_nil, List.append_nil] at this

/-! ### Blanks and comments -/

/-- Texts of blanks and comments and nothing else.  A comment from `--` runs up to the end of its line, one from the
slash and star up to the first star and slash; at the end of the text a comment may be open. -/
inductive Separates : SqlText → Prop
  | nil : Separates []
  | blank {c : Char} {t : SqlText} (isBlank : Text.isBlank c = true) (rest : Separates t) : Separates (c :: t)
  | line {body t : SqlText} (inside : '\n' ∉ body) (rest : Separates t) : Separates ('-' :: '-' :: (body ++ '\n' :: t))
  | lastLine {body : SqlText} (inside : '\n' ∉ body) : Separates ('-' :: '-' :: body)
  | block {body t : SqlText} (inside : ¬ ['*', '/'] <:+: body) (rest : Separates t) :
      Separates ('/' :: '*' :: (body ++ '*' :: '/' :: t))
  | lastBlock {body : SqlText} (inside : ¬ ['*', '/'] <:+: body) : Separates ('/' :: '*' :: body)

/-- The inside of a comment up to the end of its line. -/
theorem scanGap_line_append {body : SqlText} (h : '\n' ∉ body) (t : SqlText) :
    scanGap .lineComment (body ++ t) = (body ++ (scanGap .lineComment t).1, (scanGap .lineComment t).2) := by
  induction body with
  | nil => rfl
  | cons c body ih =>
    rw [List.mem_cons, not_or] at h
    rw [List.cons_append, scanGap_lineComment, if_neg fun hc => h.1 hc.symm, ih h.2]
    rfl

theorem scanGap_block_cons {c : Char} {t : SqlText} (h : ¬ ['*', '/'] <+: c :: t) :
    scanGap .blockComment (c :: t) = (c :: (scanGap .blockComment t).1, (scanGap .blockComment t).2) := by
  refine scanGap_blockComment fun hc ht => h ?_
  obtain ⟨u, rfl⟩ := List.head?_eq_some_iff.1 ht
  exact ⟨u, by rw [hc]; rfl⟩

/-- The inside of a comment up to its star and slash. -/
theorem scanGap_block_append {body : SqlText} (h : ¬ ['*', '/'] <:+: body) {t : SqlText} (ht : t.head? ≠ some '/') :
    scanGap .blockComment (body ++ t) = (body ++ (scanGap .blockComment t).1, (scanGap .blockComment t).2) := by
  induction body with
  | nil => rfl
  | cons c body ih =>
    rw [List.cons_append, scanGap_block_cons, ih fun hin => h (hin.trans (List.suffix_cons c body).isInfix)]
    · rfl
    · rintro ⟨u, hu⟩
      obtain ⟨rfl, hslash⟩ := List.cons.inj hu
      cases body with
      | nil => exact ht (by rw [← show '/' :: u = t from hslash]; rfl)
      | cons d body =>
        obtain rfl : '/' = d := (List.cons.inj hslash).1
        exact h ⟨[], body, rfl⟩

theorem Separates.scanGap_eq {t : SqlText} (h : Separates t) : scanGap .blanks t = (t, []) := by
  induction h with
  | nil => rfl
  | @blank c t isBlank rest ih => rw [scanGap_blank isBlank, ih]
  | @line body t inside rest ih =>
    rw [scanGap_lineStart, scanGap_line_append inside, scanGap_lineComment, if_pos rfl, ih]
  | @lastLine body inside =>
    have hline := scanGap_line_append inside []
    rw [List.append_nil] at hline
    rw [scanGap_lineStart, hline, scanGap_nil, List.append_nil]
  | @block body t inside rest ih =>
    rw [scanGap_blockStart, scanGap_block_append inside (by simp), scanGap_blockEnd, ih]
  | @lastBlock body inside =>
    have hblock := scanGap_block_append inside (t := []) (by simp)
    rw [List.append_nil] at hblock
    rw [scanGap_blockStart, hblock, scanGap_nil, List.append_nil]

/-- What a gap is made of, from any place in it on; `front` is the inside of the comment before the place. -/
theorem separates_of_scanGap (place : GapPlace) (t : SqlText) : (scanGap place t).2 = [] →
    match place with
    | .blanks => Separates t
    | .lineComment => ∀ front, '\n' ∉ front → Separates ('-' :: '-' :: (front ++ t))
    | .blockComment => ∀ front, ¬ ['*', '/'] <:+: front → (front.getLast? = some '*' → t.head? ≠ some '/') →
        Separates ('/' :: '*' :: (front ++ t)) := by
  fun_induction scanGap place t with
  | case1 place =>
    intro _
    cases place with
    | blanks => exact .nil
    | lineComment =>
      intro front hfront
      rw [List.append_nil]
      exact .lastLine hfront
    | blockComment =>
      intro front hfront _
      rw [List.append_nil]
      exact .lastBlock hfront
  | case2 t gap rest hscan ih => exact fun h => ih (by rw [hscan]; exact h) [] (by simp)
  | case3 t gap rest hscan ih => exact fun h => ih (by rw [hscan]; exact h) [] (by simp) (by simp)
  | case4 c t _ _ hb gap rest hscan ih => exact fun h => .blank hb (ih (by rw [hscan]; exact h))
  | case5 => exact fun h => absurd h (List.cons_ne_nil _ _)
  | case6 c t gap rest hscan ih =>
    intro h front hfront
    have hrest := ih (by rw [hscan]; exact h)
    by_cases hc : c = '\n'
    · subst hc
      exact .line hfront hrest
    · rw [if_neg hc] at hrest
      rw [List.append_cons]
      refine hrest (front ++ [c]) ?_
      simp [hfront, Ne.symm hc]
  | case7 t gap rest hscan ih => exact fun h front hfront _ => .block hfront (ih (by rw [hscan]; exact h))
  | case8 c t hno gap rest hscan ih =>
    intro h front hfront hlast
    have hrest := ih (by rw [hscan]; exact h)
    rw [List.append_cons]
    refine hrest (front ++ [c]) (fun hin => ?_) fun hc hhead => ?_
    · rcases List.infix_concat_iff.1 hin with ⟨v, hv⟩ | hin
      · obtain ⟨rfl, hc⟩ := List.append_inj' ((List.append_cons v '*' ['/']).symm.trans hv) rfl
        exact hlast (by simp) (by rw [← List.cons.inj hc |>.1]; rfl)
      · exact hfront hin
    · obtain rfl : c = '*' := by simpa using hc
      obtain ⟨u, rfl⟩ := List.head?_eq_some_iff.1 hhead
      exact hno u rfl rfl

/-- What can stand between tokens: a text has no token just if it is blanks and comments. -/
theorem lex_eq_end_iff {t : SqlText} : lex t = [⟨.eof, t, []⟩] ↔ Separates t := by
  constructor
  · intro h
    have hlexed := lexed_lex t
    rw [h] at hlexed
    cases hlexed with
    | last ends => exact separates_of_scanGap .blanks t (congrArg Prod.snd ends.2.2)
    | cons fits rest => cases rest
  · exact fun h => Ends.lex_gap ⟨rfl, rfl, h.scanGap_eq⟩

/-! ### The end -/

theorem Fits.text_ne_nil (h : l.Fits rest) : l.text ≠ [] := by
  obtain ⟨-, c, w, ht, -⟩ := h
  rw [ht]
  exact List.cons_ne_nil _ _

/-- Only the last lexeme marks the end, and only it has no spelling. -/
theorem Lexed.eq_concat (h : Lexed ls) : ∃ front last, ls = front ++ [last] ∧ last.kind = .eof ∧
    last.text = [] ∧ ∀ l ∈ front, l.kind ≠ .eof ∧ l.text ≠ [] := by
  induction h with
  | @last l ends => exact ⟨[], l, rfl, ends.1, ends.2.1, by simp⟩
  | @cons l ls fits rest ih =>
    obtain ⟨front, last, rfl, hkind, htext, hfront⟩ := ih
    refine ⟨l :: front, last, rfl, hkind, htext, fun m hm => ?_⟩
    rcases List.mem_cons.1 hm with rfl | hm
    · exact ⟨fits.kind_ne_eof, fits.text_ne_nil⟩
    · exact hfront m hm

/-! ### Places -/

theorem placedFrom_concat (offset : Nat) (ls : List Lexeme) (l : Lexeme) :
    placedFrom offset (ls ++ [l])
      = placedFrom offset ls ++ [⟨l, offset + Text.byteSize (spell ls) + Text.byteSize l.gap⟩] := by
  induction ls generalizing offset with
  | nil => rfl
  | cons m ls ih =>
    rw [List.cons_append, placedFrom, placedFrom, ih, spell]
    simp [spell, Nat.add_assoc]

/-- Placing changes no lexeme. -/
theorem mem_of_mem_placedFrom {p : PlacedLexeme} (h : p ∈ placedFrom offset ls) :
    p.toLexeme ∈ ls := by
  induction ls generalizing offset with
  | nil => cases h
  | cons l ls ih =>
    rcases List.mem_cons.1 h with rfl | h
    · exact List.mem_cons_self
    · exact List.mem_cons_of_mem _ (ih h)

theorem le_start_of_mem_placedFrom {p : PlacedLexeme} (h : p ∈ placedFrom offset ls) :
    offset ≤ p.start := by
  induction ls generalizing offset with
  | nil => cases h
  | cons l ls ih =>
    rcases List.mem_cons.1 h with rfl | h
    · exact Nat.le_add_right _ _
    · have := ih h
      omega

/-- Placed lexemes come one behind the other. -/
theorem pairwise_placedFrom (offset : Nat) (ls : List Lexeme) :
    (placedFrom offset ls).Pairwise fun p q => p.stop ≤ q.start := by
  induction ls generalizing offset with
  | nil => exact .nil
  | cons l ls ih =>
    exact List.pairwise_cons.2 ⟨fun q hq => le_start_of_mem_placedFrom hq, ih _⟩

/-- A placed lexeme stands on its spelling. -/
theorem between_of_mem_placedFrom {p : PlacedLexeme}
    (h : p ∈ placedFrom (Text.byteSize before) ls) :
    Text.between p.start p.stop (before ++ spell ls) = some p.text := by
  induction ls generalizing before with
  | nil => cases h
  | cons l ls ih =>
    have hall : before ++ spell (l :: ls) = before ++ l.gap ++ (l.text ++ spell ls) := by simp
    have hsize : Text.byteSize before + Text.byteSize l.gap = Text.byteSize (before ++ l.gap) := by simp
    rw [placedFrom, hsize] at h
    rcases List.mem_cons.1 h with rfl | h
    · rw [hall]
      exact Text.between_append (before ++ l.gap) l.text _
    · rw [← Text.byteSize_append] at h
      rw [hall, ← List.append_assoc]
      exact ih h

/-- The stretches that a list of placed lexemes leaves out: before the first one, which starts at a place,
and before every other one. -/
def gapsFrom : Nat → List PlacedLexeme → List Span
  | _, [] => []
  | offset, p :: ps => ⟨offset, p.start⟩ :: gapsFrom p.stop ps

/-- What is left out is the gaps. -/
theorem between_of_mem_gapsFrom {g : Span}
    (h : g ∈ gapsFrom (Text.byteSize before) (placedFrom (Text.byteSize before) ls)) :
    ∃ l ∈ ls, Text.between g.start g.stop (before ++ spell ls) = some l.gap := by
  induction ls generalizing before with
  | nil => cases h
  | cons l ls ih =>
    have hall : before ++ spell (l :: ls) = before ++ l.gap ++ l.text ++ spell ls := by simp
    rw [placedFrom, gapsFrom] at h
    rcases List.mem_cons.1 h with rfl | h
    · refine ⟨l, List.mem_cons_self, ?_⟩
      rw [spell_cons]
      exact Text.between_append before l.gap _
    · have hstop : (⟨l, Text.byteSize before + Text.byteSize l.gap⟩ : PlacedLexeme).stop
          = Text.byteSize (before ++ l.gap ++ l.text) := by
        simp [PlacedLexeme.stop, Nat.add_assoc]
      have hsize : Text.byteSize before + Text.byteSize l.gap + Text.byteSize l.text
          = Text.byteSize (before ++ l.gap ++ l.text) := by simp [Nat.add_assoc]
      rw [hstop, hsize] at h
      obtain ⟨m, hm, hgap⟩ := ih h
      exact ⟨m, List.mem_cons_of_mem _ hm, by rw [hall]; exact hgap⟩

end Lexeme

/-- **Tokens and gaps make up a text.**  The last token of a text marks the end, behind the last byte, and no
other one does.  Every other token has at least one byte and stands on its own spelling, so it starts and ends
between characters; each token ends before the next one starts.  What is left before, between and behind them
is a gap each time, also if it stands alone. -/
theorem tokenize_partition (t : SqlText) :
    (∃ front last, tokenize t = front ++ [last] ∧ last.kind = .eof ∧
      last.span = ⟨Text.byteSize t, Text.byteSize t⟩ ∧
      ∀ l ∈ front, l.kind ≠ .eof ∧ l.span.start < l.span.stop ∧
        Text.between l.span.start l.span.stop t = some l.text) ∧
    (tokenize t).Pairwise (fun l m => l.span.stop ≤ m.span.start) ∧
    ∀ g ∈ Lexeme.gapsFrom 0 (tokenize t), ∃ gap, Text.between g.start g.stop t = some gap ∧
      lex gap = [⟨.eof, gap, []⟩] := by
  have hlexed := Lexeme.lexed_lex t
  have hspell := spell_lex t
  rw [tokenize]
  generalize lex t = ls at hlexed hspell
  subst hspell
  refine ⟨?_, Lexeme.pairwise_placedFrom 0 ls, fun g hg => ?_⟩
  · obtain ⟨front, last, rfl, hkind, htext, hfront⟩ := hlexed.eq_concat
    refine ⟨_, _, Lexeme.placedFrom_concat 0 front last, hkind, ?_, fun p hp => ?_⟩
    · simp [PlacedLexeme.span, PlacedLexeme.stop, htext, Lexeme.spell]
    · obtain ⟨hne, hnonempty⟩ := hfront p.toLexeme (Lexeme.mem_of_mem_placedFrom hp)
      refine ⟨hne, ?_, ?_⟩
      · obtain ⟨c, w, hc⟩ := List.exists_cons_of_ne_nil hnonempty
        have hpos := c.utf8Size_pos
        show p.start < p.start + Text.byteSize p.text
        rw [hc, Text.byteSize_cons]
        omega
      · have hmem : p ∈ Lexeme.placedFrom (Text.byteSize []) (front ++ [last]) := by
          rw [Text.byteSize_nil, Lexeme.placedFrom_concat]
          exact List.mem_append_left _ hp
        exact Lexeme.between_of_mem_placedFrom hmem
  · have hg : g ∈ Lexeme.gapsFrom (Text.byteSize []) (Lexeme.placedFrom (Text.byteSize []) ls) := hg
    obtain ⟨l, hl, hgap⟩ := Lexeme.between_of_mem_gapsFrom hg
    exact ⟨l.gap, hgap, (hlexed.ends_gap l hl).lex_gap⟩

end JetAdapter
