import JetAdapter.Proofs.Limits
import JetAdapter.Proofs.Naming
import JetAdapter.Proofs.Settling
import JetAdapter.Proofs.Spacing
import JetAdapter.Proofs.Spellings

/-!
# Words that limit a text

The rows of a query are limited by the words ` top ` and a number, which are put in behind the first words of its text
with no blank behind them.  What comes before them stays as it is, since a blank goes on with no token
(`Lexed.lex_before_stop`).  Behind them comes what stood behind a word, so it goes on with no digit and no power of
ten; but it may be a point with a digit behind it, and then the number takes these in.  So the limited text has the two
words more and all the old tokens if and only if there is no such point (`Text.StartsWith.gains_iff`).
-/

namespace JetAdapter

open Lexeme (spell Lexed Fits)

/-! ### Numbers before a text -/

namespace Text

/-- Behind a word no digit and no power of ten goes on. -/
theorem endsNumber_of_endsWord {r : SqlText} (h : r.head?.any continuesWord = false) :
    r.head?.any Char.isDigit = false ∧ startsPower r = false := by
  cases r with
  | nil => exact ⟨rfl, rfl⟩
  | cons c r =>
    have hc : continuesWord c = false := by simpa using h
    refine ⟨Bool.eq_false_iff.2 fun hd => ?_, Bool.eq_false_iff.2 fun hp => ?_⟩
    · rw [continuesWord_of_isDigit (by simpa using hd)] at hc
      cases hc
    · have he : c = 'e' ∨ c = 'E' := by simp_all [startsPower]
      rcases he with rfl | rfl
      · exact absurd hc (by decide)
      · exact absurd hc (by decide)

theorem startsFraction_append {g : SqlText} (hg : (g.head?.any fun c => c.isDigit || c == '.') = false) (t : SqlText) :
    startsFraction (t ++ g) = startsFraction t := by
  cases t with
  | nil =>
    cases g with
    | nil => rfl
    | cons c g =>
      have hc : c ≠ '.' := by
        rintro rfl
        cases hg
      exact startsFraction_of_ne hc g
  | cons c t =>
    by_cases hc : c = '.'
    · subst hc
      cases t with
      | nil =>
        show g.head?.any Char.isDigit = false
        cases g with
        | nil => rfl
        | cons d g => simp_all
      | cons d t => rfl
    · rw [List.cons_append, startsFraction_of_ne hc, startsFraction_of_ne hc]

theorem isBlank_of_isDigit {c : Char} (h : c.isDigit = true) : isBlank c = false := by
  refine Bool.eq_false_iff.2 fun hb => ?_
  have hstop := isStop_of_isBlank hb
  simp [isStop, continuesWord_of_isDigit h] at hstop

end Text

/-- A gap goes on with no number. -/
theorem Cell.Fits.head?_gap {g r : SqlText} (h : (Cell.gap g).Fits r) :
    (g.head?.any fun c => c.isDigit || c == '.') = false := by
  rcases h.gap_front with ⟨c, t, rfl, hc⟩ | ⟨t, rfl⟩
  · have hnot : ((Text.continuesWord c = false ∧ c ∉ Text.joints) ∧ c ≠ '.') ∧ c ≠ '-' := by
      simpa [Text.isStop] using hc
    refine Bool.eq_false_iff.2 fun hhead => ?_
    have hdigit : c.isDigit = true := by simpa [hnot.1.2] using hhead
    rw [Text.continuesWord_of_isDigit hdigit] at hnot
    cases hnot.1.1.1
  · rfl

namespace Numeral

variable {w r : SqlText}

/-- What is read of digits before a text that goes on with no further one. -/
theorem scan_append (hw : ∀ c ∈ w, c.isDigit = true) (hr : r.head?.any Char.isDigit = false) :
    scan (w ++ r) = (⟨w, (scanFraction r).1, (scanPower (scanFraction r).2).1⟩, (scanPower (scanFraction r).2).2) := by
  obtain ⟨htake, hdrop⟩ := takeWhile_append_of_head? hw hr
  rw [scan, htake, hdrop]

theorem scanFraction_ne_nil (h : Text.startsFraction r = true) : (scanFraction r).1 ≠ [] := by
  unfold scanFraction
  split
  · next t =>
    have hdigits : t.takeWhile Char.isDigit ≠ [] := by
      rw [Ne, takeWhile_eq_nil_iff, Bool.not_eq_false]
      exact h
    rw [if_neg hdigits]
    exact hdigits
  · next hn =>
    rw [Text.startsFraction] at h
    · cases h
    · exact hn

end Numeral

namespace Lexeme

variable {l : Lexeme} {front back : List Lexeme} {r : SqlText}

/-- What is read of a number behind a blank. -/
theorem lex_natText (n : Nat) (r : SqlText) :
    lex (' ' :: (Decimal.natText n ++ r)) =
      ⟨numberKind (Numeral.scan (Decimal.natText n ++ r)).1, [' '], (Numeral.scan (Decimal.natText n ++ r)).1.text⟩
        :: lex (Numeral.scan (Decimal.natText n ++ r)).2 := by
  obtain ⟨c, w, hw⟩ := List.exists_cons_of_ne_nil (Decimal.natText_ne_nil n)
  have hc : c.isDigit = true := Decimal.isDigit_of_mem_natText c (by rw [hw]; exact List.mem_cons_self)
  rw [hw, List.cons_append]
  have hbare : scanGap .blanks (c :: (w ++ r)) = ([], c :: (w ++ r)) := by
    refine scanGap_token (Text.isBlank_of_isDigit hc) ?_ ?_
    · rintro rfl
      cases hc
    · rintro rfl
      cases hc
  have hgap : scanGap .blanks (' ' :: c :: (w ++ r)) = ([' '], c :: (w ++ r)) := by
    rw [scanGap_blank (by decide), hbare]
  rw [lex_of_scanGap hgap, scan_of_isDigit hc, scanNumber_eq]

/-! ### The words before a text -/

/-- Behind a keyword no word goes on. -/
theorem Fits.endsWord {k : Keyword} (h : l.Fits r) (hl : l.kind = .keyword k) :
    r.head?.any Text.continuesWord = false := by
  have hfit : (Cell.token (.keyword k) l.text).Fits r := hl ▸ h.withoutGap
  exact (Cell.isWord_of_keyword hfit).1.ends hfit

/-- Sound lexemes stay what they are before a text that no token goes on with. -/
theorem Lexed.lex_before_stop (h : Lexed (front ++ back)) (hfront : ∀ l ∈ front, l.kind.isFault = false)
    (hback : back ≠ []) (hr : Text.Stops r) : lex (spell front ++ r) = front ++ lex r := by
  induction front with
  | nil => rfl
  | cons l front ih =>
    obtain ⟨hl, hfront⟩ := List.forall_mem_cons.1 hfront
    rw [List.cons_append] at h
    obtain ⟨fits, rest⟩ : l.Fits (spell (front ++ back)) ∧ Lexed (front ++ back) := by
      generalize hls : front ++ back = ls at h
      cases h with
      | last ends => exact absurd (List.append_eq_nil_iff.1 hls).2 hback
      | cons fits rest => exact ⟨fits, rest⟩
    rw [spell_append] at fits
    have hfits := fits.standsIn hl (.append_left (spell front) (.of_stops hr))
    rw [spell_cons, List.append_assoc, List.append_assoc, hfits.lex_eq, ih rest hfront]
    rfl

end Lexeme

/-! ### The words and the text behind them -/

/-- The lexemes of the words that limit the rows: `TOP`, and the number as every number is read. -/
def topLexemes (rows : UInt64) : List Lexeme :=
  [⟨.keyword .TOP, [' '], "top".toList⟩,
    ⟨Lexeme.numberKind ⟨Decimal.natText rows.toNat, [], none⟩, [' '], Decimal.natText rows.toNat⟩]

/-- The word `TOP` stands behind a blank and before one. -/
theorem lex_topText (rows : UInt64) (r : SqlText) : lex (topText rows ++ r)
    = ⟨.keyword .TOP, [' '], "top".toList⟩ :: lex (' ' :: (Decimal.natText rows.toNat ++ r)) := by
  have hword : (Cell.token (.keyword .TOP) "top".toList).Fits (' ' :: (Decimal.natText rows.toNat ++ r)) :=
    (Cell.Wordy.word (Cell.isWord_of_isAlpha (t := "top".toList) (by decide) (by decide))).fits (by decide) rfl
  have hfits : Fits ⟨.keyword .TOP, [], "top".toList⟩ (' ' :: (Decimal.natText rows.toNat ++ r)) := hword
  exact (Fits.spaced hfits).lex_eq

/-- The words that limit the rows are read as such unless their number goes on. -/
theorem lex_topText_append {r : SqlText} (rows : UInt64) (hword : r.head?.any Text.continuesWord = false)
    (hfraction : Text.startsFraction r = false) : lex (topText rows ++ r) = topLexemes rows ++ lex r := by
  obtain ⟨hdigit, hpower⟩ := Text.endsNumber_of_endsWord hword
  have hscan : Numeral.scan (Decimal.natText rows.toNat ++ r) = (⟨Decimal.natText rows.toNat, [], none⟩, r) := by
    rw [Numeral.scan_append Decimal.isDigit_of_mem_natText hdigit, Numeral.scanFraction_of_not hfraction,
      Numeral.scanPower_of_not hpower]
  rw [lex_topText, Lexeme.lex_natText, hscan]
  simp [topLexemes, Numeral.text, Numeral.fractionText]

/-- Before a point and a digit the number is read with its fraction. -/
theorem exists_lex_topText_append {r : SqlText} (rows : UInt64) (hword : r.head?.any Text.continuesWord = false)
    (hfraction : Text.startsFraction r = true) : ∃ l ls, lex (topText rows ++ r)
      = ⟨.keyword .TOP, [' '], "top".toList⟩ :: l :: ls ∧ l.text ≠ Decimal.natText rows.toNat := by
  obtain ⟨hdigit, -⟩ := Text.endsNumber_of_endsWord hword
  rw [lex_topText, Lexeme.lex_natText]
  refine ⟨_, _, rfl, ?_⟩
  rw [Numeral.scan_append Decimal.isDigit_of_mem_natText hdigit, Numeral.text,
    Numeral.fractionText_of_ne_nil (Numeral.scanFraction_ne_nil hfraction)]
  simp

/-! ### Texts that gain tokens -/

/-- The kind and the spelling of a lexeme. -/
def Lexeme.token (l : Lexeme) : Kind × SqlText :=
  (l.kind, l.text)

/-- Whether a text has the tokens of another one and, next to each other among them, some new ones. -/
def Text.Gains (new : List Lexeme) (s s' : SqlText) : Prop :=
  ∃ front back, (lex s).map Lexeme.token = front ++ back ∧
    (lex s').map Lexeme.token = front ++ (new.map Lexeme.token ++ back)

theorem Text.Gains.length_eq {new : List Lexeme} {s s' : SqlText} (h : Gains new s s') :
    (lex s').length = (lex s).length + new.length := by
  obtain ⟨front, back, hs, hs'⟩ := h
  have hlength := congrArg List.length hs
  have hlength' := congrArg List.length hs'
  simp only [List.length_map, List.length_append] at hlength hlength'
  omega

/-- Whether a text starts with keywords, and what comes behind them. -/
structure Text.StartsWith (sql : SqlText) (front back : List Lexeme) : Prop where
  lexemes : lex sql = front ++ back
  words : ∀ l ∈ front, ∃ k, l.kind = .keyword k
  front_ne_nil : front ≠ []
  back_ne_nil : back ≠ []

namespace Text.StartsWith

variable {sql : SqlText} {front back : List Lexeme}

theorem lexed (h : StartsWith sql front back) : Lexed (front ++ back) := by
  rw [← h.lexemes]
  exact Lexeme.lexed_lex sql

/-- No word goes on behind the last keyword. -/
theorem endsWord (h : StartsWith sql front back) : (spell back).head?.any continuesWord = false := by
  obtain ⟨first, last, rfl⟩ := (List.eq_nil_or_concat front).resolve_left h.front_ne_nil
  obtain ⟨k, hk⟩ := h.words last (by simp)
  have hlexed := h.lexed
  rw [List.concat_eq_append, List.append_assoc] at hlexed
  have hrest : Lexed (last :: back) := hlexed.of_append (by simp)
  cases hrest with
  | last ends => exact absurd rfl h.back_ne_nil
  | cons fits _ => exact fits.endsWord hk

/-- The words that limit the rows leave those before them as they are. -/
theorem lex_limited (h : StartsWith sql front back) (rows : UInt64) :
    lex (spell front ++ (topText rows ++ spell back)) = front ++ lex (topText rows ++ spell back) := by
  refine h.lexed.lex_before_stop (fun l hl => ?_) h.back_ne_nil rfl
  obtain ⟨k, hk⟩ := h.words l hl
  rw [hk]
  rfl

theorem lex_limited_of_not (h : StartsWith sql front back) (rows : UInt64)
    (hfraction : startsFraction (spell back) = false) :
    lex (spell front ++ (topText rows ++ spell back)) = front ++ (topLexemes rows ++ back) := by
  rw [h.lex_limited, lex_topText_append rows h.endsWord hfraction, (h.lexed.of_append h.back_ne_nil).lex_spell]

/-- The limited text has the words among its tokens unless a fraction comes behind their place. -/
theorem gains_iff (h : StartsWith sql front back) (htop : ∀ l ∈ lex sql, l.kind ≠ .keyword .TOP) (rows : UInt64) :
    Gains (topLexemes rows) sql (spell front ++ (topText rows ++ spell back))
      ↔ startsFraction (spell back) = false := by
  constructor
  · rintro ⟨before, after, hs, hs'⟩
    refine Bool.eq_false_iff.2 fun hfraction => ?_
    obtain ⟨l, ls, hl, htext⟩ := exists_lex_topText_append rows h.endsWord hfraction
    -- the only `TOP` is the one that was put in, and the token behind it is another number
    have hall : (Kind.keyword Keyword.TOP, "top".toList) ∉ (lex sql).map Lexeme.token := by
      intro hmem
      obtain ⟨m, hm, hkind⟩ := List.mem_map.1 hmem
      exact htop m hm (congrArg Prod.fst hkind)
    rw [hs, List.mem_append, not_or] at hall
    have hcount : (Kind.keyword Keyword.TOP, "top".toList) ∉
        (Lexeme.numberKind ⟨Decimal.natText rows.toNat, [], none⟩, Decimal.natText rows.toNat) :: after := by
      rw [List.mem_cons, not_or]
      refine ⟨fun heq => ?_, hall.2⟩
      have hkind := congrArg Prod.fst heq
      rcases Lexeme.numberKind_cases ⟨Decimal.natText rows.toNat, [], none⟩ with ⟨_, hk⟩ | ⟨_, hk⟩ | ⟨_, hk⟩
      all_goals
        rw [hk] at hkind
        cases hkind
    rw [h.lex_limited, hl, List.map_append] at hs'
    obtain ⟨-, -, hbehind⟩ := (List.append_cons_inj_of_notMem hall.1 hcount).1 hs'.symm
    exact htext (congrArg Prod.snd (List.cons.inj hbehind).1).symm
  · intro hfraction
    refine ⟨front.map Lexeme.token, back.map Lexeme.token, ?_, ?_⟩
    · rw [h.lexemes, List.map_append]
    · rw [h.lex_limited_of_not rows hfraction, List.map_append, List.map_append]

end Text.StartsWith

end JetAdapter
