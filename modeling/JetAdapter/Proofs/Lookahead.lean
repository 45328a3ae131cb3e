import JetAdapter.Proofs.Lexing

/-!
# What a token sees of the text behind it

A token ends where the text behind it does not go on with it.  The scanners look at one character for that,
a numeral at two: a point needs a digit behind it, an `e` a digit or a sign.  `Text.StandsIn r r'` says that
`r'` goes on with no token that `r` does not go on with.  Then every token that ends before `r` ends before
`r'` too (`Lexeme.scan_stable`), and a lexeme that fits before `r` fits before `r'` (`Lexeme.Fits.standsIn`).

This is how texts can be put together: what may stand behind a token in place of its old neighbour is a text
that starts alike, a text that starts with a character no token goes on with, or a word where a word stood.
-/

namespace JetAdapter

/-! ### Fronts of texts -/

namespace Text

/-- Whether a text starts with a point that a number goes on with. -/
def startsFraction : SqlText → Bool
  | '.' :: t => t.head?.any Char.isDigit
  | _ => false

/-- Whether a text starts with an `e` that a number goes on with. -/
def startsPower : SqlText → Bool
  | c :: t => (c == 'e' || c == 'E') && t.head?.any fun d => d.isDigit || d == '+' || d == '-'
  | [] => false

/-- The signs that may go on with a token before them, or stand behind the `e` of a number; the minus sign
is a matter of its own. -/
def joints : List Char :=
  ['*', '+', '=', '>', '|', '\'', '"', '\x60', ']']

/-- Whether a text in the place of another one goes on with no number that the other one does not go on
with. -/
structure EndsNumber (r r' : SqlText) : Prop where
  digit : r'.head?.any Char.isDigit = true → r.head?.any Char.isDigit = true
  fraction : startsFraction r' = true → startsFraction r = true
  power : startsPower r' = true → startsPower r = true

theorem EndsNumber.nil {r : SqlText} : EndsNumber r [] where
  digit h := absurd h Bool.false_ne_true
  fraction h := absurd h Bool.false_ne_true
  power h := absurd h Bool.false_ne_true

/-- Whether words go on with a character but do not start with it. -/
def staysInWord (c : Char) : Bool :=
  continuesWord c && !startsWord c

/-- Whether a text in the place of another one goes on with no token that the other one does not go on
with.  An `@` behind an `@` is not covered. -/
structure StandsIn (r r' : SqlText) : Prop extends EndsNumber r r' where
  joint : ∀ c ∈ joints, r'.head? = some c → r.head? = some c
  word : r'.head?.any continuesWord = true → r.head?.any continuesWord = true
  inWord : r'.head?.any staysInWord = true → r.head?.any staysInWord = true
  minus : r'.head? = some '-' → r.head? = some '-'

/-- A character that no token goes on with. -/
def isStop (c : Char) : Bool :=
  !continuesWord c && !joints.contains c && c != '.' && c != '-'

theorem isStop_of_isBlank {c : Char} (h : isBlank c = true) : isStop c = true := by
  have hall : ∀ n ∈ [9, 10, 11, 12, 13, 0x20, 0x85, 0xA0, 0x1680, 0x2000, 0x2001, 0x2002, 0x2003,
      0x2004, 0x2005, 0x2006, 0x2007, 0x2008, 0x2009, 0x200A, 0x2028, 0x2029, 0x202F, 0x205F, 0x3000],
      isStop (Char.ofNat n) = true := by decide +kernel
  rw [← Char.ofNat_toNat c]
  refine hall c.toNat ?_
  simp only [isBlank, Bool.or_eq_true, Bool.and_eq_true, decide_eq_true_eq, beq_iff_eq] at h
  simp only [List.mem_cons, List.not_mem_nil, or_false]
  omega

/-- Whether no token goes on with a text, whatever the token. -/
def Stops (t : SqlText) : Prop :=
  t.head?.all isStop = true

theorem continuesWord_of_isDigit {c : Char} (h : c.isDigit = true) : continuesWord c = true := by
  have hc : c.toNat < 0x80 := by
    delta Char.isDigit at h
    simp only [Bool.and_eq_true, decide_eq_true_eq, ge_iff_le, UInt32.le_iff_toNat_le] at h
    simp only [Char.toNat]
    have : '9'.val.toNat = 57 := rfl
    omega
  simp [continuesWord, isNumber, hc, h]

theorem isDigit_of_startsWord {c : Char} (h : startsWord c = true) : c.isDigit = false := by
  rw [Bool.eq_false_iff]
  intro hd
  have hdigit := hd
  delta Char.isDigit at hd
  simp only [Bool.and_eq_true, decide_eq_true_eq, ge_iff_le, UInt32.le_iff_toNat_le] at hd
  have h9 : '9'.val.toNat = 57 := rfl
  have h0 : '0'.val.toNat = 48 := rfl
  have hlt : c.toNat < 0x80 := by
    simp only [Char.toNat]
    omega
  simp only [startsWord, isLetter, if_pos hlt, Bool.or_eq_true, beq_iff_eq] at h
  rcases h with h | rfl
  · delta Char.isAlpha Char.isUpper Char.isLower at h
    simp only [Bool.or_eq_true, decide_eq_true_eq, Bool.and_eq_true, ge_iff_le,
      UInt32.le_iff_toNat_le] at h
    have hA : 'A'.val.toNat = 65 := rfl
    have ha : 'a'.val.toNat = 97 := rfl
    omega
  · exact absurd hdigit (by decide)

theorem continuesWord_of_mem_joints {c : Char} (h : c ∈ joints) : continuesWord c = false := by
  simp only [joints, List.mem_cons, List.not_mem_nil, or_false] at h
  rcases h with rfl | rfl | rfl | rfl | rfl | rfl | rfl | rfl | rfl <;> decide

theorem startsFraction_of_ne {c : Char} (hc : c ≠ '.') (t : SqlText) :
    startsFraction (c :: t) = false := by
  rw [startsFraction]
  exact fun u hu => hc (List.cons.inj hu).1

section Fronts

variable {c d : Char} {r r' s t : SqlText}

/-- A word goes on with no number, if a number could not take its first letter for a power. -/
theorem EndsNumber.of_word (hd : continuesWord d = true) (hdigit : d.isDigit = false) (he : d ≠ 'e')
    (hE : d ≠ 'E') : EndsNumber s (d :: t) := by
  refine ⟨fun h => ?_, fun h => ?_, fun h => ?_⟩
  · simp [hdigit] at h
  · have hp : d ≠ '.' := by
      rintro rfl
      exact absurd hd (by decide)
    rw [startsFraction_of_ne hp] at h
    cases h
  · simp [startsPower, he, hE] at h

theorem head?_ne_of_mem_joints (hd : continuesWord d = true) :
    ∀ c ∈ joints, (d :: t).head? ≠ some c := by
  rintro c hc ⟨⟩
  rw [continuesWord_of_mem_joints hc] at hd
  cases hd

namespace StandsIn

theorem refl (t : SqlText) : StandsIn t t :=
  ⟨⟨id, id, id⟩, fun _ _ => id, id, id, id⟩

theorem cons (c : Char) (h : StandsIn r r') : StandsIn (c :: r) (c :: r') := by
  refine ⟨⟨id, ?_, ?_⟩, fun _ _ => id, id, id, id⟩
  · intro hf
    by_cases hc : c = '.'
    · subst hc
      exact h.digit hf
    · rw [startsFraction_of_ne hc] at hf
      cases hf
  · intro hp
    simp only [startsPower, Bool.and_eq_true] at hp ⊢
    refine ⟨hp.1, ?_⟩
    cases r' with
    | nil => simp at hp
    | cons d r' =>
      have hd : (d.isDigit = true ∨ d = '+') ∨ d = '-' := by simpa using hp.2
      rcases hd with (hd | rfl) | rfl
      · have := h.digit (by simpa using hd)
        cases r with
        | nil => cases this
        | cons e r => simp_all
      · rw [h.joint '+' (by decide) rfl]
        rfl
      · rw [h.minus rfl]
        rfl

theorem append_left (s : SqlText) (h : StandsIn r r') : StandsIn (s ++ r) (s ++ r') := by
  induction s with
  | nil => exact h
  | cons c s ih => exact ih.cons c

theorem trans (h : StandsIn r s) (h' : StandsIn s t) : StandsIn r t :=
  ⟨⟨h.digit ∘ h'.digit, h.fraction ∘ h'.fraction, h.power ∘ h'.power⟩,
    fun c hc => h.joint c hc ∘ h'.joint c hc, h.word ∘ h'.word, h.inWord ∘ h'.inWord,
    h.minus ∘ h'.minus⟩

/-- A text that no token goes on with can stand in any place. -/
theorem of_stops (h : Stops r') : StandsIn r r' := by
  cases r' with
  | nil =>
    exact ⟨⟨by simp, by simp [startsFraction], by simp [startsPower]⟩, by simp, by simp, by simp,
      by simp⟩
  | cons c t =>
    have hc : ((continuesWord c = false ∧ c ∉ joints) ∧ c ≠ '.') ∧ c ≠ '-' := by
      simpa [Stops, isStop] using h
    obtain ⟨⟨⟨hw, hj⟩, hp⟩, hm⟩ := hc
    refine ⟨⟨?_, ?_, ?_⟩, ?_, ?_, ?_, ?_⟩
    · intro hh
      have := continuesWord_of_isDigit (c := c) (by simpa using hh)
      rw [hw] at this
      cases this
    · intro hf
      rw [startsFraction_of_ne hp] at hf
      cases hf
    · intro hf
      have he : c = 'e' ∨ c = 'E' := by simp_all [startsPower]
      rcases he with rfl | rfl
      · exact absurd hw (by decide)
      · exact absurd hw (by decide)
    · rintro d hd hh
      obtain rfl : c = d := by simpa using hh
      exact absurd hd hj
    · intro hh
      have : continuesWord c = true := by simpa using hh
      rw [hw] at this
      cases this
    · intro hh
      simp [staysInWord, hw] at hh
    · intro hh
      exact absurd (by simpa using hh) hm

/-- What stands in for an end of the text can stand in any place. -/
theorem of_quiet (h : StandsIn [] t) (r : SqlText) : StandsIn r t :=
  have hend : StandsIn r [] := of_stops rfl
  hend.trans h

theorem quiet_of_stops (hr : Stops r) (h : StandsIn r t) : StandsIn [] t :=
  (of_stops hr).trans h

/-- Two characters are all that is looked at. -/
theorem of_take_two (h : r'.take 2 = r.take 2) : StandsIn r r' := by
  match r, r' with
  | [], [] => exact refl []
  | [], _ :: _ => simp at h
  | _ :: _, [] => simp at h
  | [c], [d] =>
    obtain rfl : d = c := by simpa using h
    exact refl _
  | [_], _ :: _ :: _ => simp at h
  | _ :: _ :: _, [_] => simp at h
  | c :: d :: r, c' :: d' :: r' =>
    obtain ⟨rfl, rfl⟩ : c' = c ∧ d' = d := by simpa using h
    refine ⟨⟨id, ?_, id⟩, fun _ _ => id, id, id, id⟩
    intro hf
    by_cases hc : c' = '.'
    · subst hc
      exact hf
    · rw [startsFraction_of_ne hc] at hf
      cases hf

/-- A word can stand where a word stood, if a number could not take its first letter for a power. -/
theorem of_words (hc : continuesWord c = true) (hd : startsWord d = true)
    (he : d ≠ 'e') (hE : d ≠ 'E') : StandsIn (c :: s) (d :: t) := by
  have hd' := continuesWord_of_startsWord hd
  refine ⟨EndsNumber.of_word hd' (isDigit_of_startsWord hd) he hE,
    fun j hj h => absurd h (head?_ne_of_mem_joints hd' j hj), fun _ => by simpa using hc,
    fun h => ?_, ?_⟩
  · simp [staysInWord, hd] at h
  · rintro ⟨⟩
    exact absurd hd (by decide)

end StandsIn

end Fronts

end Text

open Text (StandsIn EndsNumber)

/-- Whether the token is unsound. -/
def Kind.isFault : Kind → Bool
  | .fault _ => true
  | _ => false

/-- Whether the token is neither a word without quotes nor a sign. -/
def Kind.hasContent : Kind → Bool
  | .integer _ | .float _ | .string _ | .date _ | .identifier _ | .named _ | .fault _ => true
  | _ => false

/-! ### Stretches -/

section Stretch

variable {α : Type} {p : α → Bool} {s t : List α}

theorem any_head?_dropWhile (p : α → Bool) (t : List α) :
    (t.dropWhile p).head?.any p = false := by
  have hhead := List.head?_dropWhile_not p t
  cases ht : t.dropWhile p with
  | nil => rfl
  | cons c u =>
    rw [ht] at hhead
    simpa using hhead

theorem takeWhile_eq_nil_iff : t.takeWhile p = [] ↔ t.head?.any p = false := by
  cases t with
  | nil => simp
  | cons c t => simp [List.takeWhile_cons]

/-- A stretch ends before whatever does not start with one of its kind. -/
theorem takeWhile_append_of_head? {w : List α} (hw : ∀ c ∈ w, p c = true)
    (hs : s.head?.any p = false) :
    (w ++ s).takeWhile p = w ∧ (w ++ s).dropWhile p = s := by
  have hdrop : s.dropWhile p = s := by
    have := List.takeWhile_append_dropWhile (p := p) (l := s)
    rwa [takeWhile_eq_nil_iff.2 hs] at this
  rw [List.takeWhile_append_of_pos hw, List.dropWhile_append_of_pos hw, takeWhile_eq_nil_iff.2 hs,
    List.append_nil]
  exact ⟨rfl, hdrop⟩

/-- A stretch that ends before a rest ends also before what stands in for it. -/
theorem stretch_stable (h : (t.dropWhile p).head?.any p = false → s.head?.any p = false) :
    (t.takeWhile p ++ s).takeWhile p = t.takeWhile p ∧ (t.takeWhile p ++ s).dropWhile p = s :=
  takeWhile_append_of_head? (List.all_eq_true.1 List.all_takeWhile) (h (any_head?_dropWhile p t))

end Stretch

/-! ### Numerals -/

namespace Numeral

variable {t r' : SqlText}

theorem fractionText_of_ne_nil {digits : SqlText} (h : digits ≠ []) :
    fractionText digits = '.' :: digits := by
  cases digits with
  | nil => exact absurd rfl h
  | cons c digits => rfl

theorem scanFraction_of_not (h : Text.startsFraction t = false) : scanFraction t = ([], t) := by
  unfold scanFraction
  split
  · next t =>
    rw [if_pos (takeWhile_eq_nil_iff.2 h)]
  · rfl

theorem scanFraction_stable
    (hdigit : r'.head?.any Char.isDigit = true → (scanFraction t).2.head?.any Char.isDigit = true)
    (hfraction : Text.startsFraction r' = true → Text.startsFraction (scanFraction t).2 = true) :
    scanFraction (fractionText (scanFraction t).1 ++ r') = ((scanFraction t).1, r') := by
  generalize h : scanFraction t = x at hdigit hfraction ⊢
  unfold scanFraction at h
  split at h
  · next t =>
    split at h
    · next hn =>
      cases h
      refine scanFraction_of_not (Bool.eq_false_iff.2 fun hf => ?_)
      have hd : t.head?.any Char.isDigit = true := hfraction hf
      rw [takeWhile_eq_nil_iff.1 hn] at hd
      cases hd
    · next hn =>
      cases h
      have hs := stretch_stable (p := Char.isDigit) (t := t) (s := r')
        fun hd => Bool.eq_false_iff.2 fun hh => by rw [hdigit hh] at hd; cases hd
      rw [fractionText_of_ne_nil hn, List.cons_append, scanFraction, hs.1, hs.2, if_neg hn]
  · next hn =>
    cases h
    refine scanFraction_of_not (Bool.eq_false_iff.2 fun hf => ?_)
    have ht := hfraction hf
    rw [Text.startsFraction] at ht
    · cases ht
    · exact fun u hu => hn u hu

theorem scanSign_of_not (hplus : t.head? ≠ some '+') (hminus : t.head? ≠ some '-') :
    scanSign t = ([], t) := by
  unfold scanSign
  split
  · exact absurd rfl hplus
  · exact absurd rfl hminus
  · rfl

/-- What makes an `e` begin a power is the one character behind it. -/
theorem startsPower_iff {mark : Char} : Text.startsPower (mark :: t) = true ↔
    (mark = 'e' ∨ mark = 'E') ∧
      ((scanSign t).1 ≠ [] ∨ (scanSign t).2.takeWhile Char.isDigit ≠ []) := by
  have hfront : (t.head?.any fun d => d.isDigit || d == '+' || d == '-') = true ↔
      ((scanSign t).1 ≠ [] ∨ (scanSign t).2.takeWhile Char.isDigit ≠ []) := by
    match t with
    | [] => simp [scanSign]
    | d :: t =>
      by_cases hplus : d = '+'
      · subst hplus
        simp [scanSign]
      by_cases hminus : d = '-'
      · subst hminus
        simp [scanSign]
      rw [scanSign_of_not (by simpa using hplus) (by simpa using hminus)]
      have hdigit : (d :: t).takeWhile Char.isDigit ≠ [] ↔ d.isDigit = true := by
        rw [Ne, takeWhile_eq_nil_iff]
        simp
      rw [hdigit]
      simp [hplus, hminus]
  rw [Text.startsPower, Bool.and_eq_true, hfront]
  simp

theorem scanPower_of_starts {mark : Char} (h : Text.startsPower (mark :: t) = true) :
    scanPower (mark :: t) = (some ⟨mark, (scanSign t).1, (scanSign t).2.takeWhile Char.isDigit⟩,
      (scanSign t).2.dropWhile Char.isDigit) := by
  rw [scanPower]
  exact if_pos (startsPower_iff.1 h)

theorem scanPower_of_not (h : Text.startsPower t = false) : scanPower t = (none, t) := by
  cases t with
  | nil => rfl
  | cons mark t =>
    rw [scanPower]
    exact if_neg fun hp => by rw [startsPower_iff.2 hp] at h; cases h

theorem scanSign_append {u : SqlText}
    (h : (scanSign t).1 = [] → u.head? ≠ some '+' ∧ u.head? ≠ some '-') :
    scanSign ((scanSign t).1 ++ u) = ((scanSign t).1, u) := by
  generalize hs : scanSign t = x at h ⊢
  unfold scanSign at hs
  split at hs
  · cases hs
    rfl
  · cases hs
    rfl
  · cases hs
    exact scanSign_of_not (h rfl).1 (h rfl).2

theorem scanPower_stable
    (hdigit : r'.head?.any Char.isDigit = true → (scanPower t).2.head?.any Char.isDigit = true)
    (hpower : (scanPower t).1 = none → Text.startsPower r' = true →
      Text.startsPower (scanPower t).2 = true) :
    scanPower (((scanPower t).1.map powerText).getD [] ++ r') = ((scanPower t).1, r') := by
  cases hp : Text.startsPower t with
  | false =>
    rw [scanPower_of_not hp] at hpower ⊢
    refine scanPower_of_not (Bool.eq_false_iff.2 fun hf => ?_)
    rw [hpower rfl hf] at hp
    cases hp
  | true =>
    cases t with
    | nil => cases hp
    | cons mark t =>
      rw [scanPower_of_starts hp] at hdigit ⊢
      -- The digits end at the rest, and the sign at the digits.
      obtain ⟨ht, hd⟩ := stretch_stable (p := Char.isDigit) (t := (scanSign t).2) (s := r')
        fun hd => Bool.eq_false_iff.2 fun hh => by rw [hdigit hh] at hd; cases hd
      obtain ⟨hm, hrest⟩ := startsPower_iff.1 hp
      have hs : scanSign ((scanSign t).1 ++ ((scanSign t).2.takeWhile Char.isDigit ++ r'))
          = ((scanSign t).1, (scanSign t).2.takeWhile Char.isDigit ++ r') := by
        refine scanSign_append fun hnil => ?_
        obtain ⟨d, w, hw⟩ := List.exists_cons_of_ne_nil (hrest.resolve_left (not_not_intro hnil))
        have hdigit : d.isDigit = true :=
          List.all_eq_true.1 List.all_takeWhile d (by rw [hw]; exact List.mem_cons_self)
        rw [hw, List.cons_append, List.head?_cons]
        refine ⟨?_, ?_⟩
        · rintro ⟨⟩
          cases hdigit
        · rintro ⟨⟩
          cases hdigit
      show scanPower (mark :: ((scanSign t).1 ++ (scanSign t).2.takeWhile Char.isDigit ++ r')) = _
      rw [List.append_assoc, scanPower_of_starts, hs, ht, hd]
      rw [startsPower_iff, hs, ht]
      exact ⟨hm, hrest⟩

theorem any_head?_append {p : Char → Bool} {r : SqlText} (s : SqlText)
    (h : r'.head?.any p = true → r.head?.any p = true) :
    (s ++ r').head?.any p = true → (s ++ r).head?.any p = true := by
  cases s with
  | nil => exact h
  | cons c s => exact id

theorem scanPower_text_eq_nil_or :
    ((scanPower t).1.map powerText).getD [] = [] ∨
      ∃ c u, ((scanPower t).1.map powerText).getD [] = c :: u ∧ c ≠ '.' := by
  cases hp : Text.startsPower t with
  | false =>
    rw [scanPower_of_not hp]
    exact .inl rfl
  | true =>
    cases t with
    | nil => cases hp
    | cons mark t =>
      rw [scanPower_of_starts hp]
      refine .inr ⟨mark, _, rfl, ?_⟩
      rintro rfl
      rcases (startsPower_iff.1 hp).1 with h | h
      · cases h
      · cases h

/-- Digits and a fraction end before everything that does not go on with them. -/
theorem scan_restart {x : SqlText}
    (hdigit : x.head?.any Char.isDigit = true →
      (scanFraction (t.dropWhile Char.isDigit)).2.head?.any Char.isDigit = true)
    (hfraction : Text.startsFraction x = true →
      Text.startsFraction (scanFraction (t.dropWhile Char.isDigit)).2 = true) :
    scan ((scan t).1.whole ++ (fractionText (scan t).1.fraction ++ x))
      = (⟨(scan t).1.whole, (scan t).1.fraction, (scanPower x).1⟩, (scanPower x).2) := by
  have hx := scanFraction_stable hdigit hfraction
  obtain ⟨ht, hd⟩ := stretch_stable (p := Char.isDigit) (t := t)
    (s := fractionText (scanFraction (t.dropWhile Char.isDigit)).1 ++ x)
    fun hd => Bool.eq_false_iff.2 fun hh => by
      have := any_head?_append _ hdigit hh
      rw [scanFraction_text, hd] at this
      cases this
  simp only [scan] at ht hd hx ⊢
  rw [ht, hd, hx]

theorem scanPower_scan (t : SqlText) :
    scanPower (scanFraction (t.dropWhile Char.isDigit)).2 = ((scan t).1.power, (scan t).2) := rfl

/-- A numeral ends before a rest if it ends before another one and the rest goes on with it no more. -/
theorem scan_stable_of
    (hdigit : r'.head?.any Char.isDigit = true → (scan t).2.head?.any Char.isDigit = true)
    (hfraction : Text.startsFraction r' = true → Text.startsFraction (scan t).2 = true)
    (hpower : (scan t).1.power = none → Text.startsPower r' = true →
      Text.startsPower (scan t).2 = true) :
    scan ((scan t).1.text ++ r') = ((scan t).1, r') := by
  have hstable :
      scanPower (((scanPower (scanFraction (t.dropWhile Char.isDigit)).2).1.map powerText).getD [] ++ r')
        = ((scanPower (scanFraction (t.dropWhile Char.isDigit)).2).1, r') :=
    scanPower_stable hdigit hpower
  have htext := scanPower_text (scanFraction (t.dropWhile Char.isDigit)).2
  have hfront := scanPower_text_eq_nil_or (t := (scanFraction (t.dropWhile Char.isDigit)).2)
  rw [scanPower_scan] at hstable htext hfront
  have hscan := scan_restart (t := t) (x := ((scan t).1.power.map powerText).getD [] ++ r') ?_ ?_
  · rw [hstable] at hscan
    simpa only [text, List.append_assoc] using hscan
  · rw [← htext]
    exact any_head?_append _ hdigit
  · rw [← htext]
    rcases hfront with hn | ⟨c, u, hcu, hc⟩
    · rw [hn]
      exact hfraction
    · rw [hcu, List.cons_append, Text.startsFraction_of_ne hc]
      intro h
      cases h

/-- A numeral ends before a rest where it ended before the one that the rest stands in for. -/
theorem scan_stable (hr : EndsNumber (scan t).2 r') :
    scan ((scan t).1.text ++ r') = ((scan t).1, r') :=
  scan_stable_of hr.digit hr.fraction fun _ => hr.power

/-- An `e` behind a numeral is no longer left alone where a minus sign comes to stand behind it, unless the
numeral has a power of ten already: then a power without digits is read. -/
theorem scan_before_power {e : Char} {r u : SqlText} (he : e = 'e' ∨ e = 'E')
    (h : (scan t).2 = e :: r) (hu : u.head?.any Char.isDigit = false) :
    scan ((scan t).1.text ++ e :: '-' :: u) = ((scan t).1, e :: '-' :: u) ∨
      (scan ((scan t).1.text ++ e :: '-' :: u)).1.lacksPowerDigits = true := by
  have hdot : e ≠ '.' := by
    rintro rfl
    rcases he with he | he
    · cases he
    · cases he
  have hdigit : ∀ v, (e :: v : SqlText).head?.any Char.isDigit = false := by
    intro v
    rcases he with rfl | rfl
    · rfl
    · rfl
  cases hp : (scan t).1.power with
  | some q =>
    left
    refine scan_stable_of ?_ ?_ ?_
    · rw [hdigit]
      exact fun h => nomatch h
    · rw [Text.startsFraction_of_ne hdot]
      exact fun h => nomatch h
    · rw [hp]
      exact fun h => nomatch h
  | none =>
    right
    have hscan := scan_restart (t := t) (x := e :: '-' :: u) ?_ ?_
    · have hpow : scanPower (e :: '-' :: u) = (some ⟨e, ['-'], []⟩, u) := by
        have hstart : Text.startsPower (e :: '-' :: u) = true := by
          rcases he with rfl | rfl
          · rfl
          · rfl
        have hnil := takeWhile_eq_nil_iff.2 hu
        rw [scanPower_of_starts hstart]
        simp only [scanSign, hnil]
        congr 1
        have := List.takeWhile_append_dropWhile (p := Char.isDigit) (l := u)
        rwa [hnil] at this
      rw [hpow] at hscan
      rw [text, hp, Option.map_none, Option.getD_none, List.append_nil, List.append_assoc, hscan]
      rfl
    · rw [hdigit]
      exact fun h => nomatch h
    · rw [Text.startsFraction_of_ne hdot]
      exact fun h => nomatch h

end Numeral

/-! ### Gaps -/

namespace Lexeme

/-- What is taken off a text, place by place; the two characters that open or close a comment are taken together. -/
theorem scanGap_nil (place : GapPlace) : scanGap place [] = ([], []) := by
  cases place <;> rfl

theorem scanGap_lineStart (t : SqlText) :
    scanGap .blanks ('-' :: '-' :: t) = ('-' :: '-' :: (scanGap .lineComment t).1, (scanGap .lineComment t).2) := rfl

theorem scanGap_blockStart (t : SqlText) :
    scanGap .blanks ('/' :: '*' :: t) = ('/' :: '*' :: (scanGap .blockComment t).1, (scanGap .blockComment t).2) := rfl

theorem scanGap_lineComment (c : Char) (t : SqlText) :
    scanGap .lineComment (c :: t) = (c :: (scanGap (if c = '\n' then .blanks else .lineComment) t).1,
      (scanGap (if c = '\n' then .blanks else .lineComment) t).2) := by
  rw [scanGap.eq_def]
  split
  · next heq => cases heq
  all_goals try contradiction
  · next heq =>
    obtain ⟨rfl, rfl⟩ := List.cons.inj heq
    rfl

theorem scanGap_blockEnd (t : SqlText) :
    scanGap .blockComment ('*' :: '/' :: t) = ('*' :: '/' :: (scanGap .blanks t).1, (scanGap .blanks t).2) := rfl

/-- Where no comment starts. -/
theorem scanGap_cons {c : Char} {t : SqlText} (hdash : c = '-' → t.head? ≠ some '-')
    (hslash : c = '/' → t.head? ≠ some '*') : scanGap .blanks (c :: t)
      = if Text.isBlank c then (c :: (scanGap .blanks t).1, (scanGap .blanks t).2) else ([], c :: t) := by
  rw [scanGap.eq_def]
  split
  · next heq => cases heq
  · next heq =>
    obtain ⟨rfl, rfl⟩ := List.cons.inj heq
    exact absurd rfl (hdash rfl)
  · next heq =>
    obtain ⟨rfl, rfl⟩ := List.cons.inj heq
    exact absurd rfl (hslash rfl)
  · next heq =>
    obtain ⟨rfl, rfl⟩ := List.cons.inj heq
    rfl
  all_goals contradiction

theorem scanGap_blank {c : Char} (hc : Text.isBlank c = true) (t : SqlText) :
    scanGap .blanks (c :: t) = (c :: (scanGap .blanks t).1, (scanGap .blanks t).2) := by
  rw [scanGap_cons, if_pos hc]
  · rintro rfl
    cases hc
  · rintro rfl
    cases hc

theorem scanGap_token {c : Char} {t : SqlText} (hc : Text.isBlank c = false)
    (hdash : c = '-' → t.head? ≠ some '-') (hslash : c = '/' → t.head? ≠ some '*') :
    scanGap .blanks (c :: t) = ([], c :: t) := by
  rw [scanGap_cons hdash hslash, if_neg (by simp [hc])]

theorem scanGap_blockComment {c : Char} {t : SqlText} (hc : c = '*' → t.head? ≠ some '/') :
    scanGap .blockComment (c :: t)
      = (c :: (scanGap .blockComment t).1, (scanGap .blockComment t).2) := by
  rw [scanGap.eq_def]
  split
  · next heq => cases heq
  all_goals try contradiction
  · next heq =>
    obtain ⟨rfl, rfl⟩ := List.cons.inj heq
    exact absurd rfl (hc rfl)
  · next heq =>
    obtain ⟨rfl, rfl⟩ := List.cons.inj heq
    rfl

theorem scanGap_blockComment_ne_nil (c : Char) (t : SqlText) :
    (scanGap .blockComment (c :: t)).1 ≠ [] := by
  by_cases hc : c = '*' ∧ t.head? = some '/'
  · obtain ⟨rfl, ht⟩ := hc
    obtain ⟨t, rfl⟩ := List.head?_eq_some_iff.1 ht
    exact List.cons_ne_nil _ _
  · rw [scanGap_blockComment fun h ht => hc ⟨h, ht⟩]
    exact List.cons_ne_nil _ _

/-- Whether a text starts with no gap. -/
def Bare (t : SqlText) : Prop :=
  scanGap .blanks t = ([], t)

/-- Where a gap has ended any other text may follow, and at most a further gap goes on with it. -/
theorem scanGap_append {place : GapPlace} {t g r : SqlText} (h : scanGap place t = (g, r))
    (hr : r ≠ []) (u : SqlText) :
    scanGap place (g ++ u) = (g ++ (scanGap .blanks u).1, (scanGap .blanks u).2) := by
  fun_induction scanGap place t generalizing g with
  | case1 place =>
    cases h
    exact absurd rfl hr
  | case2 t gap rest hg ih =>
    cases h
    simp only [List.cons_append, scanGap_lineStart, ih hg]
  | case3 t gap rest hg ih =>
    cases h
    simp only [List.cons_append, scanGap_blockStart, ih hg]
  | case4 c t hdash hslash hc gap rest hg ih =>
    cases h
    rw [List.cons_append, scanGap_blank hc, ih hg]
    rfl
  | case5 c t hdash hslash hc =>
    cases h
    rfl
  | case6 c t gap rest hg ih =>
    cases h
    simp only [List.cons_append, scanGap_lineComment, ih hg]
  | case7 t gap rest hg ih =>
    cases h
    simp only [List.cons_append, scanGap_blockEnd, ih hg]
  | case8 c t hend gap rest hg ih =>
    cases h
    rw [List.cons_append, scanGap_blockComment, ih hg]
    · rfl
    rintro rfl hh
    have htext := scanGap_text .blockComment t
    rw [hg] at htext
    cases gap with
    | nil =>
      cases t with
      | nil =>
        cases hg
        exact hr rfl
      | cons d t => exact scanGap_blockComment_ne_nil d t (congrArg Prod.fst hg)
    | cons d gap =>
      rw [List.cons_append, List.head?_cons] at hh
      cases hh
      exact hend _ rfl htext.symm

/-- Where a gap has ended it ends also before any other text that starts with no gap. -/
theorem scanGap_append_bare {place : GapPlace} {t g r r' : SqlText} (h : scanGap place t = (g, r))
    (hr : r ≠ []) (hb : Bare r') : scanGap place (g ++ r') = (g, r') := by
  rw [scanGap_append h hr, hb, List.append_nil]

/-- Behind a gap there is no further one. -/
theorem bare_of_scanGap {place : GapPlace} {t g r : SqlText} (h : scanGap place t = (g, r)) :
    Bare r := by
  fun_induction scanGap place t generalizing g with
  | case1 place =>
    cases h
    rfl
  | case5 c t hdash hslash hc =>
    cases h
    refine scanGap_token (by simpa using hc) ?_ ?_
    · rintro rfl ht
      obtain ⟨u, hu⟩ := List.head?_eq_some_iff.1 ht
      exact hdash u rfl hu
    · rintro rfl ht
      obtain ⟨u, hu⟩ := List.head?_eq_some_iff.1 ht
      exact hslash u rfl hu
  | case2 t gap rest hg ih | case3 t gap rest hg ih | case4 c t hdash hslash hc gap rest hg ih
  | case6 c t gap rest hg ih | case7 t gap rest hg ih | case8 c t hend gap rest hg ih =>
    cases h
    exact ih hg

theorem bare_cons_iff {c : Char} {t : SqlText} : Bare (c :: t) ↔ Text.isBlank c = false ∧
    (c = '-' → t.head? ≠ some '-') ∧ (c = '/' → t.head? ≠ some '*') := by
  constructor
  · intro h
    refine ⟨Bool.eq_false_iff.2 fun hc => ?_, ?_, ?_⟩
    · rw [Bare, scanGap_blank hc] at h
      cases congrArg Prod.fst h
    · rintro rfl ht
      obtain ⟨u, rfl⟩ := List.head?_eq_some_iff.1 ht
      cases congrArg Prod.fst h
    · rintro rfl ht
      obtain ⟨u, rfl⟩ := List.head?_eq_some_iff.1 ht
      cases congrArg Prod.fst h
  · rintro ⟨hb, hdash, hslash⟩
    exact scanGap_token hb hdash hslash

theorem Bare.standsOff {c : Char} {w r r' : SqlText} (h : Bare (c :: (w ++ r)))
    (hr : ∀ j ∈ Text.joints, r'.head? = some j → r.head? = some j)
    (hm : c = '-' → w = [] → r'.head? = some '-' → r.head? = some '-') : Bare (c :: (w ++ r')) := by
  rw [bare_cons_iff] at h ⊢
  cases w with
  | nil =>
    exact ⟨h.1, fun hc hh => h.2.1 hc (hm hc rfl hh),
      fun hc hh => h.2.2 hc (hr '*' (by decide) hh)⟩
  | cons d w => exact h

/-! ### Tokens -/

variable {c : Char} {t w r r' : SqlText} {k : Kind}

theorem IsClosing.mem_joints {c : Char} (h : IsClosing c) : c ∈ Text.joints := by
  rcases h with rfl | rfl | rfl | rfl <;> decide

theorem scanQuoted_stable {opening closing : Char} {kind : SqlText → Kind} {fault : LexicalFault}
    (h : scanQuoted opening closing kind fault t = ⟨k, c :: w, r⟩)
    (hr : r'.head? = some closing → r.head? = some closing) (hend : k.isFault = true → r = [] → r' = []) :
    scanQuoted opening closing kind fault (w ++ r') = ⟨k, c :: w, r'⟩ := by
  rw [scanQuoted] at h
  split at h
  · next content rest hs =>
    cases h
    have hread := Text.readQuoted_double closing content r' fun hh =>
      (Text.eq_of_readQuoted hs).2 (hr hh)
    rw [List.append_assoc, scanQuoted, List.singleton_append, hread]
  · next hs =>
    cases h
    rw [hend rfl rfl, List.append_nil, scanQuoted, hs]

theorem scanDate_stable (h : scanDate t = ⟨k, c :: w, r⟩)
    (hend : k.isFault = true → r = [] → r' = []) : scanDate (w ++ r') = ⟨k, c :: w, r'⟩ := by
  rw [scanDate] at h
  split at h
  · next d rest hd =>
    cases h
    have hall : ∀ x ∈ t.takeWhile (· != '#'), (x != '#') = true :=
      List.all_eq_true.1 List.all_takeWhile
    rw [List.append_assoc, List.singleton_append, scanDate, List.takeWhile_append_of_pos hall,
      List.dropWhile_append_of_pos hall]
    simp
  · next hd =>
    cases h
    rw [hend rfl rfl, List.append_nil, scanDate, hd]

theorem stretch_word (hr : r'.head?.any Text.continuesWord = true →
    (t.dropWhile Text.continuesWord).head?.any Text.continuesWord = true) :
    (t.takeWhile Text.continuesWord ++ r').takeWhile Text.continuesWord
        = t.takeWhile Text.continuesWord ∧
      (t.takeWhile Text.continuesWord ++ r').dropWhile Text.continuesWord = r' :=
  stretch_stable fun hd => Bool.eq_false_iff.2 fun hh => by rw [hr hh] at hd; cases hd

theorem scanAt_stable (h : scanAt t = ⟨k, c :: w, r⟩)
    (hr : r'.head?.any Text.continuesWord = true → r.head?.any Text.continuesWord = true)
    (hat : k.isFault = true → w = [] → r'.head? ≠ some '@') :
    scanAt (w ++ r') = ⟨k, c :: w, r'⟩ := by
  unfold scanAt at h
  split at h
  · next t =>
    cases h
    obtain ⟨ht, hd⟩ := stretch_word hr
    rw [List.cons_append, scanAt, ht, hd]
  · next hn =>
    cases h
    obtain ⟨ht, hd⟩ := stretch_word hr
    rw [scanAt]
    · rw [ht, hd]
    · intro u hu
      cases hw : t.takeWhile Text.continuesWord with
      | nil =>
        rw [hw, List.nil_append] at hu
        exact hat (by rw [if_pos hw]; rfl) hw (by rw [hu, List.head?_cons])
      | cons d name =>
        rw [hw, List.cons_append] at hu
        have hd : Text.continuesWord d = true :=
          List.all_eq_true.1 List.all_takeWhile d (by rw [hw]; exact List.mem_cons_self)
        rw [(List.cons.inj hu).1] at hd
        cases hd

theorem scanNumber_eq (t : SqlText) : scanNumber t
    = ⟨numberKind (Numeral.scan t).1, (Numeral.scan t).1.text, (Numeral.scan t).2⟩ := rfl

theorem scanNumber_stable (h : scanNumber t = ⟨k, w, r⟩) (hr : EndsNumber r r') :
    scanNumber (w ++ r') = ⟨k, w, r'⟩ := by
  rw [scanNumber_eq] at h
  obtain ⟨rfl, rfl, rfl⟩ := Scan.mk.inj h
  rw [scanNumber_eq, Numeral.scan_stable hr]

theorem scanWord_stable (h : scanWord t = ⟨k, w, r⟩)
    (hr : r'.head?.any Text.continuesWord = true → r.head?.any Text.continuesWord = true) :
    scanWord (w ++ r') = ⟨k, w, r'⟩ := by
  cases h
  obtain ⟨ht, hd⟩ := stretch_word hr
  rw [scanWord, ht, hd]

theorem scanSymbol_stable (h : scanSymbol c t = ⟨k, c :: w, r⟩) (hr : ∀ j ∈ Text.joints, r'.head? = some j → r.head? = some j) :
    scanSymbol c (w ++ r') = ⟨k, c :: w, r'⟩ := by
  unfold scanSymbol at h
  split at h
  · cases h
    rfl
  · cases h
    rfl
  · cases h
    rfl
  · cases h
    rfl
  · cases h
    rfl
  · next h1 h2 h3 h4 h5 =>
    cases h
    have hnone : ∀ d ∈ Text.joints, (∀ u, t = d :: u → False) → ∀ v, r' ≠ d :: v := by
      rintro d hd ht v rfl
      obtain ⟨u, hu⟩ := List.head?_eq_some_iff.1 (hr d hd rfl)
      exact ht u hu
    show scanSymbol c r' = ⟨charKind c, [c], r'⟩
    rw [scanSymbol]
    · rintro v rfl
      exact hnone _ (by decide) (fun u => h1 u rfl) v
    · rintro v rfl
      exact hnone _ (by decide) (fun u => h2 u rfl) v
    · rintro v rfl
      exact hnone _ (by decide) (fun u => h3 u rfl) v
    · rintro v rfl
      exact hnone _ (by decide) (fun u => h4 u rfl) v
    · rintro v rfl
      exact hnone _ (by decide) (fun u => h5 u rfl) v

/-- Whether a token that starts with a character goes on with letters and digits. -/
def opensWord (c : Char) : Bool :=
  Text.startsWord c || c == '@'

/-- A token stays what it is before a rest that stands in for the one behind it.  An unsound token that
reaches to the end must stay there, and an `@` of its own must not get a further one behind it. -/
theorem scan_stable (h : scan c t = ⟨k, c :: w, r⟩)
    (hr : ∀ j ∈ Text.joints, r'.head? = some j → r.head? = some j)
    (hn : c.isDigit = true → EndsNumber r r')
    (hw : opensWord c = true →
      r'.head?.any Text.continuesWord = true → r.head?.any Text.continuesWord = true)
    (hend : k.isFault = true → r = [] → r' = [])
    (hat : k.isFault = true → c :: w = ['@'] → r'.head? ≠ some '@') :
    scan c (w ++ r') = ⟨k, c :: w, r'⟩ := by
  cases scan_form c with
  | quoted closing kind fault closes content eq =>
    rw [eq] at h ⊢
    exact scanQuoted_stable h (hr closing closes.mem_joints) hend
  | date first eq =>
    rw [eq] at h ⊢
    exact scanDate_stable h hend
  | atSign first eq =>
    rw [eq] at h ⊢
    refine scanAt_stable h (hw (by simp [opensWord, first])) fun hk hn => hat hk ?_
    rw [first, hn]
  | number first eq =>
    rw [eq] at h ⊢
    exact scanNumber_stable h (hn first)
  | word first eq =>
    rw [eq] at h ⊢
    exact scanWord_stable h (hw (by simp [opensWord, first]))
  | symbol first eq =>
    rw [eq] at h ⊢
    exact scanSymbol_stable h hr

theorem scan_of_startsWord {c : Char} (h : Text.startsWord c = true) (t : SqlText) :
    scan c t = scanWord (c :: t) := by
  have hd := Text.isDigit_of_startsWord h
  unfold scan
  split
  all_goals first | exact absurd h (by decide) | skip
  rw [if_neg (by simp [hd]), if_pos h]

theorem scan_of_isDigit {c : Char} (h : c.isDigit = true) (t : SqlText) :
    scan c t = scanNumber (c :: t) := by
  unfold scan
  split
  all_goals first | exact absurd h (by decide) | skip
  rw [if_pos h]

/-- A token is a word, a sign, or has a content. -/
theorem scan_cases (c : Char) (t : SqlText) :
    (Text.startsWord c = true ∧ scan c t = scanWord (c :: t)) ∨ scan c t = scanSymbol c t ∨
      (scan c t).kind.hasContent = true := by
  cases scan_form c with
  | quoted closing kind fault closes content eq =>
    refine .inr (.inr ?_)
    rw [eq, scanQuoted]
    split
    · rcases content with hc | hc
      · rw [hc]
        rfl
      · rw [hc]
        rfl
    · rfl
  | date first eq =>
    refine .inr (.inr ?_)
    rw [eq, scanDate]
    split <;> rfl
  | atSign first eq =>
    refine .inr (.inr ?_)
    rw [eq]
    unfold scanAt
    split
    · simp only
      split <;> rfl
    · simp only
      split <;> rfl
  | number first eq =>
    refine .inr (.inr ?_)
    rw [eq, scanNumber_eq]
    show (numberKind _).hasContent = true
    rw [numberKind]
    split
    · rfl
    · split <;> rfl
  | word first eq => exact .inl ⟨first, eq t⟩
  | symbol first eq => exact .inr (.inl (eq t))

theorem wordKind_eq (w : SqlText) :
    wordKind w = .identifier w ∨ ∃ k, Keyword.ofWord? w = some k ∧ wordKind w = .keyword k := by
  rw [wordKind]
  split
  · next k hk => exact .inr ⟨k, hk, rfl⟩
  · exact .inl rfl

/-- A word is no sign. -/
theorem wordKind_ne_symbol (w : SqlText) (s : Symbol) : wordKind w ≠ .symbol s := by
  rcases wordKind_eq w with h | ⟨k, -, h⟩
  · simp [h]
  · simp [h]

/-- The kinds of signs. -/
theorem scanSymbol_kind (c : Char) (t : SqlText) :
    (∃ s, (scanSymbol c t).kind = .symbol s) ∨ (scanSymbol c t).kind = .placeholder ∨
      ∃ d, (scanSymbol c t).kind = .other d := by
  unfold scanSymbol
  split
  all_goals try exact .inl ⟨_, rfl⟩
  unfold charKind
  split
  all_goals first | exact .inl ⟨_, rfl⟩ | exact .inr (.inl rfl) | exact .inr (.inr ⟨_, rfl⟩)

/-! ### Lexemes -/

variable {l : Lexeme} {rest rest' : SqlText}

/-- Behind its gap a fitting lexeme starts with no gap. -/
theorem Fits.bare (h : l.Fits rest) : Bare (l.text ++ rest) :=
  bare_of_scanGap h.1

theorem Fits.ne_nil (h : l.Fits rest) : l.text ++ rest ≠ [] := by
  obtain ⟨-, c, w, hl, -⟩ := h
  simp [hl]

/-- Only the end of a text is an end. -/
theorem Fits.kind_ne_eof (h : l.Fits rest) : l.kind ≠ .eof := by
  obtain ⟨-, c, w, -, hs⟩ := h
  have hk : (scan c (w ++ rest)).kind = l.kind := by rw [hs]
  rw [← hk]
  rcases scan_cases c (w ++ rest) with ⟨-, heq⟩ | heq | hc
  · rw [heq]
    show wordKind _ ≠ _
    rcases wordKind_eq ((c :: (w ++ rest)).takeWhile Text.continuesWord) with h | ⟨k, -, h⟩
    · rw [h]
      exact nofun
    · rw [h]
      exact nofun
  · rw [heq]
    rcases scanSymbol_kind c (w ++ rest) with ⟨s, h⟩ | h | ⟨d, h⟩
    · rw [h]
      exact nofun
    · rw [h]
      exact nofun
    · rw [h]
      exact nofun
  · intro h
    rw [h] at hc
    cases hc

/-- A sound lexeme fits also before a rest that goes on with it no more than the one it fits before. -/
theorem Fits.standsOff (h : l.Fits rest) (hk : l.kind.isFault = false)
    (hr : ∀ j ∈ Text.joints, rest'.head? = some j → rest.head? = some j)
    (hn : l.text.head?.any Char.isDigit = true → EndsNumber rest rest')
    (hw : l.text.head?.any opensWord = true →
      rest'.head?.any Text.continuesWord = true → rest.head?.any Text.continuesWord = true)
    (hm : l.text = ['-'] → rest'.head? = some '-' → rest.head? = some '-') : l.Fits rest' := by
  have hb := h.bare
  have hne := h.ne_nil
  obtain ⟨hg, c, w, hl, hs⟩ := h
  rw [hl] at hg hs hb hne hn hw hm
  have hb' : Bare (c :: w ++ rest') := by
    refine Bare.standsOff hb hr ?_
    rintro rfl rfl
    exact hm rfl
  refine ⟨?_, c, w, hl, ?_⟩
  · rw [hl]
    exact scanGap_append_bare hg hne hb'
  · rw [hl]
    exact scan_stable hs hr (fun hc => hn (by simpa using hc)) (fun hc => hw (by simpa using hc))
      (fun hf => by rw [hk] at hf; cases hf)
      fun hf => by rw [hk] at hf; cases hf

/-- A sound lexeme fits also before a rest that stands in for the one it fits before. -/
theorem Fits.standsIn (h : l.Fits rest) (hk : l.kind.isFault = false) (hr : StandsIn rest rest') :
    l.Fits rest' :=
  h.standsOff hk hr.joint (fun _ => hr.toEndsNumber) (fun _ => hr.word) fun _ => hr.minus

/-- Any lexeme, sound or not, fits also before a rest that stands in for the one it fits before, unless it reaches to
the end because something is missing in it, or is an `@` of its own and gets a further one behind it. -/
theorem Fits.before (h : l.Fits rest) (hr : StandsIn rest rest') (hend : rest = [] → rest' = [])
    (hat : l.text = ['@'] → rest'.head? ≠ some '@') : l.Fits rest' := by
  have hbare := h.bare
  have hne := h.ne_nil
  obtain ⟨hg, c, w, hl, hs⟩ := h
  rw [hl] at hg hs hbare hne hat
  have hbare' : Bare (c :: w ++ rest') :=
    hbare.standsOff hr.joint fun _ _ => hr.minus
  refine ⟨?_, c, w, hl, ?_⟩
  · rw [hl]
    exact scanGap_append_bare hg hne hbare'
  · rw [hl]
    exact scan_stable hs hr.joint (fun _ => hr.toEndsNumber) (fun _ => hr.word) (fun _ => hend) fun _ => hat

/-- A lexeme fits with another gap before it, if that is one. -/
theorem Fits.regap {gap : SqlText} (h : l.Fits rest)
    (hg : scanGap .blanks (gap ++ (l.text ++ rest)) = (gap, l.text ++ rest)) :
    Fits { l with gap := gap } rest :=
  ⟨hg, h.2⟩

theorem Fits.withoutGap (h : l.Fits rest) : Fits { l with gap := [] } rest :=
  h.regap h.bare

end Lexeme

end JetAdapter
