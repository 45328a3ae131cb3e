import JetAdapter.Proofs.Cells

/-!
# Cells put together anew

When cells are put together anew, a word may come to stand directly before a word, or a minus sign before a
comment, which starts with two of them.  `Settles p os ss` says that the cells `os` are read as `ss`: words
may have run together, a minus sign into a comment and a gap into a gap, but no cell with the property `p` is
involved.  Or the text is unsound, and then there is a fault in it.  So a text without faults has the same
cells with that property (`Settles.filter`).

What cells are read as is found from the last one to the first one.  `Replaces cs ss` is what is known then
of the cells `ss` that are read in the place of old ones `cs`: what fitted before the old ones also fits
before them.
-/

namespace JetAdapter.Cell

open Text (StandsIn EndsNumber)

variable {c : Cell} {cs as bs os ss ss₁ : List Cell} {k : Kind} {t g v w rest : SqlText} {p : Cell → Bool}

/-! ### Words -/

/-- Whether a text is a word without quotes. -/
def IsWord (t : SqlText) : Prop :=
  t.head?.any Text.startsWord = true ∧ ∀ c ∈ t, Text.continuesWord c = true

/-- Whether a token of this spelling goes on with letters and digits: a word, or a name behind an `@` or
two. -/
inductive Wordy : Kind → SqlText → Prop
  | word {t : SqlText} (isWord : IsWord t) : Wordy (Lexeme.wordKind t) t
  | named {t : SqlText} (nonempty : t ≠ []) (all : ∀ c ∈ t, Text.continuesWord c = true) :
      Wordy (.named t) ('@' :: t)
  | systemName {t : SqlText} (nonempty : t ≠ []) (all : ∀ c ∈ t, Text.continuesWord c = true) :
      Wordy (.identifier ('@' :: '@' :: t)) ('@' :: '@' :: t)

theorem isAlpha_of_toLower {c : Char} (h : c.toLower.isAlpha = true) : c.isAlpha = true := by
  by_cases hu : c.isUpper = true
  · show (c.isUpper || c.isLower) = true
    rw [hu, Bool.true_or]
  · have hc : c.toLower = c :=
      dif_neg fun hr => hu (decide_eq_true hr)
    rwa [hc] at h

theorem isWord_of_all (hfirst : t.head?.any Text.startsWord = true) (h : t.all Text.continuesWord = true) :
    IsWord t :=
  ⟨hfirst, List.all_eq_true.1 h⟩

theorem isWord_of_isAlpha (hne : t ≠ []) (h : t.all Char.isAlpha = true) : IsWord t := by
  rw [List.all_eq_true] at h
  refine ⟨?_, fun c hc => ?_⟩
  · cases t with
    | nil => exact absurd rfl hne
    | cons c t => simp [Text.startsWord, Text.isLetter_of_isAlpha (h c List.mem_cons_self)]
  · simp [Text.continuesWord, Text.isLetter_of_isAlpha (h c hc)]

/-- What is spelled like a word of letters of ASCII is a word. -/
theorem isWord_of_sameWord (h : Text.sameWord t w = true) (hne : w ≠ [])
    (hw : (Text.lower w).all Char.isAlpha = true) : IsWord t := by
  have hlower : Text.lower t = Text.lower w := by simpa [Text.sameWord] using h
  rw [List.all_eq_true] at hw
  refine isWord_of_isAlpha ?_ (List.all_eq_true.2 fun c hc => isAlpha_of_toLower (hw _ ?_))
  · rintro rfl
    exact hne (List.map_eq_nil_iff.1 hlower.symm)
  · rw [← hlower]
    exact List.mem_map_of_mem hc

/-- A name or word fits before everything that does not go on with it. -/
theorem Wordy.fits (h : Wordy k t) (hb : t.head?.any Text.isBlank = false)
    (hr : rest.head?.any Text.continuesWord = false) : (token k t).Fits rest := by
  cases h with
  | word isWord =>
    obtain ⟨hfirst, hall⟩ := isWord
    cases t with
    | nil => cases hfirst
    | cons c t =>
      have hc : Text.startsWord c = true := by simpa using hfirst
      obtain ⟨ht, hd⟩ := takeWhile_append_of_head? hall hr
      refine ⟨Lexeme.bare_cons_iff.2 ⟨by simpa using hb, ?_, ?_⟩, c, t, rfl, ?_⟩
      · rintro rfl
        exact absurd hc (by decide)
      · rintro rfl
        exact absurd hc (by decide)
      · rw [Lexeme.scan_of_startsWord hc, ← List.cons_append, Lexeme.scanWord, ht, hd]
  | @named t nonempty all =>
    obtain ⟨ht, hd⟩ := takeWhile_append_of_head? all hr
    refine ⟨Lexeme.bare_cons_iff.2 ⟨by decide, by simp, by simp⟩, '@', t, rfl, ?_⟩
    show Lexeme.scanAt (t ++ rest) = _
    rw [Lexeme.scanAt]
    · rw [ht, hd, if_neg nonempty]
    · intro u hu
      obtain ⟨c, t, rfl⟩ := List.exists_cons_of_ne_nil nonempty
      obtain rfl : c = '@' := (List.cons.inj hu).1
      exact absurd (all '@' List.mem_cons_self) (by decide)
  | @systemName t nonempty all =>
    obtain ⟨ht, hd⟩ := takeWhile_append_of_head? all hr
    refine ⟨Lexeme.bare_cons_iff.2 ⟨by decide, by simp, by simp⟩, '@', '@' :: t, rfl, ?_⟩
    show Lexeme.scanAt ('@' :: (t ++ rest)) = _
    rw [Lexeme.scanAt, ht, hd, if_neg nonempty]

theorem Fits.wordy (h : (token k t).Fits rest) (hk : k.isFault = false)
    (ht : t.head?.any Lexeme.opensWord = true) : Wordy k t := by
  obtain ⟨-, c, w, hl, hs⟩ := h
  obtain rfl : t = c :: w := hl
  have hall : ∀ u : SqlText, ∀ d ∈ u.takeWhile Text.continuesWord, Text.continuesWord d = true :=
    fun u => List.all_eq_true.1 List.all_takeWhile
  have hc : Text.startsWord c = true ∨ c = '@' := by simpa [Lexeme.opensWord] using ht
  rcases hc with hc | rfl
  · rw [Lexeme.scan_of_startsWord hc] at hs
    obtain ⟨rfl, hw, -⟩ := Lexeme.Scan.mk.inj hs
    rw [hw]
    exact .word ⟨by simpa using hc, by rw [← hw]; exact hall _⟩
  · change Lexeme.scanAt (w ++ rest) = _ at hs
    unfold Lexeme.scanAt at hs
    split at hs
    · next u hu =>
      obtain ⟨rfl, hw, -⟩ := Lexeme.Scan.mk.inj hs
      split at hk
      · cases hk
      · next hn =>
        obtain rfl : w = '@' :: u.takeWhile Text.continuesWord := (List.cons.inj hw).2.symm
        rw [if_neg hn]
        exact .systemName hn (hall u)
    · obtain ⟨rfl, hw, -⟩ := Lexeme.Scan.mk.inj hs
      split at hk
      · cases hk
      · next hn =>
        have hname : (w ++ rest).takeWhile Text.continuesWord = w := (List.cons.inj hw).2
        rw [if_neg hn, hname]
        rw [hname] at hn
        exact .named hn (by rw [← hname]; exact hall _)

theorem Wordy.append (h : Wordy k w) (hv : ∀ c ∈ v, Text.continuesWord c = true) :
    ∃ k', Wordy k' (w ++ v) ∧ k'.isMarker = k.isMarker := by
  have hall : ∀ {u : SqlText}, (∀ c ∈ u, Text.continuesWord c = true) →
      ∀ c ∈ u ++ v, Text.continuesWord c = true := by
    intro u hu c hc
    rcases List.mem_append.1 hc with hc | hc
    · exact hu c hc
    · exact hv c hc
  cases h with
  | word isWord =>
    refine ⟨_, .word ⟨?_, hall isWord.2⟩, ?_⟩
    · cases w with
      | nil => exact absurd isWord.1 (by simp)
      | cons c w => exact isWord.1
    · rw [Lexeme.wordKind_isMarker, Lexeme.wordKind_isMarker]
  | named nonempty all => exact ⟨_, .named (by simp [nonempty]) (hall all), rfl⟩
  | systemName nonempty all => exact ⟨_, .systemName (by simp [nonempty]) (hall all), rfl⟩

theorem Wordy.isFault (h : Wordy k t) : k.isFault = false := by
  cases h with
  | word isWord =>
    rw [Lexeme.wordKind]
    split <;> rfl
  | named => rfl
  | systemName => rfl

theorem IsWord.append (h : IsWord w) (hv : ∀ c ∈ v, Text.continuesWord c = true) :
    IsWord (w ++ v) := by
  obtain ⟨hfirst, hall⟩ := h
  cases w with
  | nil => cases hfirst
  | cons d w =>
    refine ⟨hfirst, fun c hc => ?_⟩
    rcases List.mem_append.1 hc with hc | hc
    · exact hall c hc
    · exact hv c hc

theorem IsWord.continues_head (h : IsWord w) : w.head?.any Text.continuesWord = true := by
  cases w with
  | nil => cases h.1
  | cons c w => exact h.2 c List.mem_cons_self

/-! ### Symbols and keywords -/

/-- The delimiters are spelled as they are. -/
theorem text_of_symbol {s : Symbol} (h : (token (.symbol s) t).Fits rest) :
    (s = .leftParen → t = ['(']) ∧ (s = .rightParen → t = [')']) ∧ (s = .comma → t = [',']) ∧
      (s = .semicolon → t = [';']) := by
  obtain ⟨-, c, w, hl, hs⟩ := h
  obtain rfl : t = c :: w := hl
  have hk : (Lexeme.scan c (w ++ rest)).kind = .symbol s := by rw [hs]
  rcases Lexeme.scan_cases c (w ++ rest) with ⟨-, heq⟩ | heq | hc
  · rw [heq] at hk
    change Lexeme.wordKind _ = _ at hk
    rcases Lexeme.wordKind_eq ((c :: (w ++ rest)).takeWhile Text.continuesWord) with h | ⟨k, -, h⟩
    · rw [h] at hk
      cases hk
    · rw [h] at hk
      cases hk
  · rw [heq] at hs
    unfold Lexeme.scanSymbol at hs
    split at hs
    all_goals obtain ⟨hkind, htext, -⟩ := Lexeme.Scan.mk.inj hs
    case h_6 =>
      obtain rfl : [] = w := (List.cons.inj htext).2
      unfold Lexeme.charKind at hkind
      split at hkind
      all_goals cases hkind
      all_goals simp
    all_goals
      cases hkind
      simp
  · rw [hk] at hc
    cases hc

/-- A keyword is a word. -/
theorem isWord_of_keyword {k : Keyword} (h : (token (.keyword k) t).Fits rest) :
    IsWord t ∧ Keyword.ofWord? t = some k := by
  obtain ⟨-, c, w, hl, hs⟩ := h
  obtain rfl : t = c :: w := hl
  have hk : (Lexeme.scan c (w ++ rest)).kind = .keyword k := by rw [hs]
  rcases Lexeme.scan_cases c (w ++ rest) with ⟨hstart, heq⟩ | heq | hc
  · rw [heq] at hs
    obtain ⟨hkind, htext, -⟩ := Lexeme.Scan.mk.inj hs
    have hword : (c :: (w ++ rest)).takeWhile Text.continuesWord = c :: w := htext
    refine ⟨⟨by simpa using hstart, ?_⟩, ?_⟩
    · rw [← hword]
      exact List.all_eq_true.1 List.all_takeWhile
    · have hkey : Lexeme.wordKind (c :: w) = .keyword k := by rw [← hword]; exact hkind
      rcases Lexeme.wordKind_eq (c :: w) with h | ⟨k', hk', h⟩
      · rw [h] at hkey
        cases hkey
      · rw [h] at hkey
        rw [hk', Kind.keyword.inj hkey]
  · rw [heq] at hk
    rcases Lexeme.scanSymbol_kind c (w ++ rest) with ⟨s, h⟩ | h | ⟨d, h⟩
    all_goals
      rw [h] at hk
      cases hk
  · rw [hk] at hc
    cases hc

/-- The first letter of a keyword in small letters is that of its spelling. -/
theorem head_of_keyword {k : Keyword} (h : (token (.keyword k) t).Fits rest) :
    ∃ c w, t = c :: w ∧ some c.toLower = k.spelling.head?.map Char.toLower := by
  have hfound := (isWord_of_keyword h).2
  rw [Keyword.ofWord?] at hfound
  have hsame : Text.lower k.spelling = Text.lower t := by
    simpa [Text.sameWord] using List.find?_some hfound
  obtain ⟨-, c, w, hl, -⟩ := h
  refine ⟨c, w, hl, ?_⟩
  obtain rfl : t = c :: w := hl
  have hhead := congrArg List.head? hsame
  rw [Text.lower, List.head?_map] at hhead
  exact hhead.symm

/-! ### Settling -/

/-- How cells that were put together anew are read, where no cell with a property is involved in any change,
or that there is a fault in the text. -/
inductive Settles (p : Cell → Bool) : List Cell → List Cell → Prop
  | nil : Settles p [] []
  | keep {c : Cell} {os ss : List Cell} (fits : c.Fits (spell ss)) (rest : Settles p os ss) :
      Settles p (c :: os) (c :: ss)
  | meld {k k' : Kind} {w v : SqlText} {os ss : List Cell}
      (front : Wordy k w) (back : IsWord v) (both : Wordy k' (w ++ v))
      (fits : (token k' (w ++ v)).Fits (spell ss))
      (aside : p (token k w) = false ∧ p (token (Lexeme.wordKind v) v) = false ∧
        p (token k' (w ++ v)) = false)
      (rest : Settles p os (token (Lexeme.wordKind v) v :: ss)) :
      Settles p (token k w :: os) (token k' (w ++ v) :: ss)
  | swallow {k : Kind} {g : SqlText} {os ss : List Cell} (fits : (gap ('-' :: g)).Fits (spell ss))
      (aside : p (token k ['-']) = false) (rest : Settles p os (gap g :: ss)) :
      Settles p (token k ['-'] :: os) (gap ('-' :: g) :: ss)
  | merge {f g : SqlText} {os ss : List Cell} (fits : (gap (f ++ g)).Fits (spell ss))
      (rest : Settles p os (gap g :: ss)) : Settles p (gap f :: os) (gap (f ++ g) :: ss)
  | wreck {os ss : List Cell} (sound : Sound ss) (spelled : spell ss = spell os)
      (fault : ∃ c ∈ ss, c.isFault = true ∧ p c = false) : Settles p os ss

namespace Settles

theorem sound (h : Settles p os ss) : Sound ss := by
  induction h with
  | nil => exact .nil
  | keep fits rest ih => exact .cons fits ih
  | meld front back both fits aside rest ih => exact .cons fits (sound_cons_iff.1 ih).2
  | swallow fits aside rest ih => exact .cons fits (sound_cons_iff.1 ih).2
  | merge fits rest ih => exact .cons fits (sound_cons_iff.1 ih).2
  | wreck sound spelled fault => exact sound

theorem spelled (h : Settles p os ss) : spell ss = spell os := by
  induction h with
  | nil => rfl
  | keep fits rest ih => rw [spell_cons, spell_cons, ih]
  | meld front back both fits aside rest ih | swallow fits aside rest ih | merge fits rest ih =>
    rw [spell_cons] at ih ⊢
    simp [← ih]
  | wreck sound spelled fault => exact spelled

/-- Sound cells are read as they stand. -/
theorem refl (h : Sound cs) : Settles p cs cs := by
  induction h with
  | nil => exact .nil
  | cons fits rest ih => exact .keep fits ih

/-- The cells with the property are the same, unless there are faults without the property. -/
theorem filter (h : Settles p os ss) (hgap : ∀ g, p (gap g) = false)
    (hs : ∀ c ∈ ss, c.isFault = true → p c = true) : ss.filter p = os.filter p := by
  induction h with
  | nil => rfl
  | keep fits rest ih =>
    rw [List.filter_cons, List.filter_cons, ih fun c hc => hs c (List.mem_cons_of_mem _ hc)]
  | meld front back both fits aside rest ih =>
    obtain ⟨hw, hv, hwv⟩ := aside
    rw [List.filter_cons_of_neg (by simp [hwv]), List.filter_cons_of_neg (by simp [hw]), ← ih ?_,
      List.filter_cons_of_neg (by simp [hv])]
    intro c hc
    rcases List.mem_cons.1 hc with rfl | hc
    · intro hf
      have hword := (Wordy.word back).isFault
      rw [show (Lexeme.wordKind _).isFault = true from hf] at hword
      cases hword
    · exact hs c (List.mem_cons_of_mem _ hc)
  | swallow fits aside rest ih =>
    rw [List.filter_cons_of_neg (by simp [hgap]), List.filter_cons_of_neg (by simp [aside]), ← ih ?_,
      List.filter_cons_of_neg (by simp [hgap])]
    intro c hc
    rcases List.mem_cons.1 hc with rfl | hc
    · exact nofun
    · exact hs c (List.mem_cons_of_mem _ hc)
  | merge fits rest ih =>
    rw [List.filter_cons_of_neg (by simp [hgap]), List.filter_cons_of_neg (by simp [hgap]), ← ih ?_,
      List.filter_cons_of_neg (by simp [hgap])]
    intro c hc
    rcases List.mem_cons.1 hc with rfl | hc
    · exact nofun
    · exact hs c (List.mem_cons_of_mem _ hc)
  | wreck sound spelled fault =>
    obtain ⟨c, hc, hf, hp⟩ := fault
    rw [hs c hc hf] at hp
    cases hp

end Settles

/-! ### New cells in the place of old ones -/

/-- Whether the cell is a gap. -/
def isGap : Cell → Bool
  | gap _ => true
  | token _ _ => false

/-- Whether the cell is a token. -/
def isToken (c : Cell) : Bool :=
  !c.isGap

/-- The first token of some cells. -/
def firstToken? (cs : List Cell) : Option Cell :=
  (cs.filter isToken).head?

/-- Whether cells that fit before other ones fit also before these, and gaps stand where gaps stood. -/
structure Replaces (cs ss : List Cell) : Prop where
  text : StandsIn (spell cs) (spell ss)
  gap : cs.head?.any isGap = true → ss.head?.any isGap = true ∨ StandsIn [] (spell ss)

theorem Replaces.of_stops (h : Text.Stops (spell ss)) : Replaces cs ss :=
  ⟨.of_stops h, fun _ => .inr (.of_stops h)⟩

/-- A word takes the place of a word. -/
theorem Replaces.of_word {k' : Kind} {c : Char} (hw : w.head?.any Text.continuesWord = true)
    (hc : Text.startsWord c = true) (he : c ≠ 'e') (hE : c ≠ 'E') :
    Replaces (token k w :: cs) (token k' (c :: t) :: ss) := by
  refine ⟨?_, nofun⟩
  cases w with
  | nil => cases hw
  | cons d w => exact .of_words (by simpa using hw) hc he hE

theorem Fits.gap_front (h : (gap g).Fits rest) :
    (∃ c t, g = c :: t ∧ Text.isStop c = true) ∨ ∃ t, g = '-' :: '-' :: t := by
  obtain ⟨hne, hg⟩ := h
  obtain ⟨c, t, rfl⟩ := List.exists_cons_of_ne_nil hne
  by_cases hb : Text.isBlank c = true
  · exact .inl ⟨c, t, rfl, Text.isStop_of_isBlank hb⟩
  by_cases hs : c = '/'
  · exact .inl ⟨c, t, rfl, by rw [hs]; decide⟩
  by_cases hd : c = '-' ∧ (t ++ rest).head? = some '-'
  · obtain ⟨rfl, ht⟩ := hd
    obtain ⟨u, hu⟩ := List.head?_eq_some_iff.1 ht
    rw [List.cons_append, hu, Lexeme.scanGap_lineStart] at hg
    exact .inr ⟨_, (congrArg Prod.fst hg).symm⟩
  · rw [List.cons_append, Lexeme.scanGap_token (by simpa using hb) (fun hc ht => hd ⟨hc, ht⟩)
      fun hc => absurd hc hs] at hg
    cases congrArg Prod.fst hg

/-- Behind the front of a gap nothing matters. -/
theorem Fits.standsIn_gap (h : (gap g).Fits rest) (r r' : SqlText) :
    StandsIn (g ++ r) (g ++ r') := by
  rcases h.gap_front with ⟨c, t, rfl, hc⟩ | ⟨t, rfl⟩
  · exact .of_stops (by simpa [Text.Stops] using hc)
  · exact .of_take_two rfl

theorem bare_of_sound (hs : Sound ss) (h : ss.head?.any isGap = false) :
    Lexeme.Bare (spell ss) := by
  cases hs with
  | nil => rfl
  | @cons c cs fits rest =>
    cases c with
    | gap g => cases h
    | token k t => exact Lexeme.Fits.bare fits

namespace Settles

theorem gap (hfit : (gap g).Fits rest) (hr : rest ≠ []) (h : Settles p os ss) :
    ∃ ss', Settles p (.gap g :: os) ss' ∧ ss'.head?.any isGap = true := by
  have hscan := Lexeme.scanGap_append hfit.2 hr
  cases hg : ss.head?.any isGap with
  | false =>
    refine ⟨_, .keep ⟨hfit.1, ?_⟩ h, rfl⟩
    rw [hscan, bare_of_sound h.sound hg, List.append_nil]
  | true =>
    cases ss with
    | nil => cases hg
    | cons c ss =>
      cases c with
      | token k t => cases hg
      | gap g' =>
        have hg' := (sound_cons_iff.1 h.sound).1
        refine ⟨_, .merge ⟨by simp [hfit.1], ?_⟩ h, rfl⟩
        have := hscan (g' ++ spell ss)
        rwa [hg'.2, ← List.append_assoc] at this

/-- A cell that is kept fits before what is read in the place of the cells behind it. -/
theorem keep_one (hs : Sound (c :: cs)) (hc : c.isFault = false)
    (hend : c.isGap = true → cs = [] → os = []) (h : Settles p os ss) (hr : Replaces cs ss) :
    ∃ ss', Settles p (c :: os) ss' ∧ Replaces (c :: cs) ss' := by
  obtain ⟨hfit, hcs⟩ := sound_cons_iff.1 hs
  cases c with
  | token k t =>
    refine ⟨_, .keep (Lexeme.Fits.standsIn hfit hc hr.text) h, ?_, fun hg => nomatch hg⟩
    exact hr.text.append_left t
  | gap g =>
    cases cs with
    | nil =>
      obtain rfl := hend rfl rfl
      have hss : ss = [] := h.sound.eq_nil_of_byteSize (by rw [h.spelled]; rfl)
      subst hss
      exact ⟨_, .keep hfit h, hr.text.append_left g, fun _ => .inl rfl⟩
    | cons d cs =>
      obtain ⟨ss', h', hg⟩ := h.gap hfit hcs.spell_ne_nil
      refine ⟨ss', h', ?_, fun _ => .inl hg⟩
      have htext := hr.text.append_left g
      rw [h.spelled] at htext
      rw [h'.spelled]
      exact htext

/-- Several cells that are kept. -/
theorem keep_all (hs : Sound (as ++ cs)) (hf : ∀ c ∈ as, c.isFault = false) (hcs : cs ≠ [])
    (h : Settles p os ss) (hr : Replaces cs ss) :
    ∃ ss', Settles p (as ++ os) ss' ∧ Replaces (as ++ cs) ss' := by
  induction as with
  | nil => exact ⟨ss, h, hr⟩
  | cons c as ih =>
    obtain ⟨ss', h', hr'⟩ := ih (sound_cons_iff.1 hs).2 fun d hd => hf d (List.mem_cons_of_mem _ hd)
    refine h'.keep_one hs (hf c List.mem_cons_self) (fun _ hn => ?_) hr'
    exact absurd (List.append_eq_nil_iff.1 hn).2 hcs

/-- A piece that starts and ends with a token keeps all its cells. -/
theorem piece (hs : Sound (as ++ cs)) (hf : ∀ c ∈ as, c.isFault = false)
    (hlast : as.getLast?.any isGap = false) (h : Settles p os ss)
    (hr : StandsIn (spell cs) (spell ss)) : Settles p (as ++ os) (as ++ ss) := by
  induction as with
  | nil => exact h
  | cons c as ih =>
    obtain ⟨hfit, hs'⟩ := sound_cons_iff.1 hs
    have hlast' : as ≠ [] → as.getLast?.any isGap = false := by
      intro hne
      rwa [List.getLast?_cons_of_ne_nil hne] at hlast
    have h' : Settles p (as ++ os) (as ++ ss) := by
      by_cases hne : as = []
      · rw [hne]
        exact h
      · exact ih hs' (fun d hd => hf d (List.mem_cons_of_mem _ hd)) (hlast' hne)
    have hr' := hr.append_left (spell as)
    rw [← spell_append, ← spell_append] at hr'
    refine .keep ?_ h'
    cases c with
    | token k t => exact Lexeme.Fits.standsIn hfit (hf _ List.mem_cons_self) hr'
    | gap g =>
      have hne : as ≠ [] := by
        rintro rfl
        cases hlast
      obtain ⟨d, as, rfl⟩ := List.exists_cons_of_ne_nil hne
      rcases hfit.not_gap hs' with hn | ⟨k, t, ds, hd⟩
      · cases hn
      · obtain rfl : d = token k t := (List.cons.inj hd).1
        refine ⟨hfit.1, Lexeme.scanGap_append_bare hfit.2 hs'.spell_ne_nil ?_⟩
        exact bare_of_sound h'.sound rfl

end Settles

/-! ### Written cells -/

/-- A parenthesis or a comma. -/
def sign (c : Char) : Cell :=
  .token (Lexeme.charKind c) [c]

/-- A word as it is written. -/
def word (w : SqlText) : Cell :=
  .token (Lexeme.wordKind w) w

/-- A blank as it is written. -/
def space : Cell :=
  .gap [' ']

@[simp] theorem text_sign (c : Char) : (sign c).text = [c] := rfl

@[simp] theorem text_word (w : SqlText) : (word w).text = w := rfl

@[simp] theorem text_space : space.text = [' '] := rfl

/-- A parenthesis or a comma fits before everything. -/
theorem fits_sign {c : Char} (hc : c = '(' ∨ c = ')' ∨ c = ',') (rest : SqlText) :
    (sign c).Fits rest := by
  rcases hc with rfl | rfl | rfl
  · exact ⟨Lexeme.scanGap_token (by decide) (by simp) (by simp), '(', [], rfl, rfl⟩
  · exact ⟨Lexeme.scanGap_token (by decide) (by simp) (by simp), ')', [], rfl, rfl⟩
  · exact ⟨Lexeme.scanGap_token (by decide) (by simp) (by simp), ',', [], rfl, rfl⟩

theorem stops_sign {c : Char} (hc : c = '(' ∨ c = ')' ∨ c = ',') (cs : List Cell) :
    Text.Stops (spell (sign c :: cs)) := by
  rcases hc with rfl | rfl | rfl
  · exact (by decide : Text.isStop '(' = true)
  · exact (by decide : Text.isStop ')' = true)
  · exact (by decide : Text.isStop ',' = true)

theorem stops_space (cs : List Cell) : Text.Stops (spell (space :: cs)) :=
  (by decide : Text.isStop ' ' = true)

namespace Settles

theorem sign {c : Char} (hc : c = '(' ∨ c = ')' ∨ c = ',') (h : Settles p os ss) :
    Settles p (Cell.sign c :: os) (Cell.sign c :: ss) :=
  .keep (fits_sign hc _) h

/-- What is a token at the end of a text is one before everything that no token goes on with. -/
theorem written (hfit : (token k t).Fits []) (hk : k.isFault = false) (h : Settles p os ss)
    (hs : Text.Stops (spell ss)) : Settles p (token k t :: os) (token k t :: ss) :=
  .keep (Lexeme.Fits.standsIn hfit hk (.of_stops hs)) h

theorem space (h : Settles p os ss) (hg : ss.head?.any isGap = false) :
    Settles p (Cell.space :: os) (Cell.space :: ss) := by
  refine .keep ⟨by simp, ?_⟩ h
  show Lexeme.scanGap .blanks (' ' :: spell ss) = _
  rw [Lexeme.scanGap_blank (by decide), bare_of_sound h.sound hg]

/-- A blank before whatever is read behind it. -/
theorem blank (h : Settles p os ss) :
    ∃ ss', Settles p (Cell.space :: os) ss' ∧ Text.Stops (spell ss') := by
  have hfit : (Cell.gap [' ']).Fits ['x'] := ⟨by simp, rfl⟩
  obtain ⟨ss', h', -⟩ := h.gap hfit (by simp)
  refine ⟨ss', h', ?_⟩
  rw [h'.spelled]
  exact stops_space os

end Settles

/-! ### Before a text that words, but no other tokens, may run into -/

/-- Whether at most a word or the minus sign goes on with the cells: they start with a word, with a gap or
with what no token goes on with. -/
structure Soft (cs : List Cell) : Prop where
  ends : EndsNumber [] (spell cs)
  joint : ∀ j ∈ Text.joints, (spell cs).head? ≠ some j
  inWord : (spell cs).head?.any Text.staysInWord = false
  minus : (spell cs).head? = some '-' → cs.head?.any isGap = true

theorem Soft.of_quiet (h : StandsIn [] (spell cs)) : Soft cs :=
  ⟨h.toEndsNumber, fun j hj hh => absurd (h.joint j hj hh) (by simp),
    Bool.eq_false_iff.2 fun hh => absurd (h.inWord hh) (by simp),
    fun hh => absurd (h.minus hh) (by simp)⟩

theorem Soft.of_gap (h : (gap g).Fits rest) : Soft (gap g :: cs) := by
  have hin := h.standsIn_gap
  rcases h.gap_front with ⟨c, t, rfl, hc⟩ | ⟨t, rfl⟩
  · exact .of_quiet (.of_stops (by simpa [Text.Stops] using hc))
  · refine ⟨⟨?_, ?_, ?_⟩, ?_, rfl, fun _ => rfl⟩
    · intro hdigit
      cases hdigit
    · intro hfraction
      cases hfraction
    · intro hpower
      cases hpower
    · rintro j hj ⟨⟩
      exact absurd hj (by decide)

theorem Soft.of_word {c : Char} (hc : Text.startsWord c = true) (he : c ≠ 'e') (hE : c ≠ 'E') :
    Soft (token k (c :: t) :: cs) := by
  have hc' := Text.continuesWord_of_startsWord hc
  refine ⟨.of_word hc' (Text.isDigit_of_startsWord hc) he hE,
    fun j hj => Text.head?_ne_of_mem_joints hc' j hj, ?_, ?_⟩
  · simp [Text.staysInWord, hc]
  · rintro ⟨⟩
    exact absurd hc (by decide)

theorem Soft.of_replaces (h : Soft cs) (hr : Replaces cs ss) : Soft ss := by
  refine ⟨?_, fun j hj hh => h.joint j hj (hr.text.joint j hj hh), ?_, fun hh => ?_⟩
  · have he := h.ends
    have ht := hr.text.toEndsNumber
    exact ⟨he.digit ∘ ht.digit, he.fraction ∘ ht.fraction, he.power ∘ ht.power⟩
  · refine Bool.eq_false_iff.2 fun hh => ?_
    have := hr.text.inWord hh
    rw [h.inWord] at this
    cases this
  · rcases hr.gap (h.minus (hr.text.minus hh)) with hg | hg
    · exact hg
    · exact absurd (hg.minus hh) (by simp)

/-- Whether neither gaps nor symbols nor words have a property. -/
structure Spares (p : Cell → Bool) : Prop where
  gap : ∀ g, p (gap g) = false
  symbol : ∀ s t, p (token (.symbol s) t) = false
  keyword : ∀ k t, p (token (.keyword k) t) = false
  word : ∀ k t, Wordy k t → k.isMarker = false → p (token k t) = false

/-- Gaps, symbols and words. -/
def Plain (c : Cell) : Prop :=
  ∀ p, Spares p → p c = false

/-- Whether the cell marks a parameter. -/
def isMarker : Cell → Bool
  | gap _ => false
  | token k _ => k.isMarker

theorem spares_isMarker : Spares isMarker where
  gap _ := rfl
  symbol _ _ := rfl
  keyword _ _ := rfl
  word _ _ _ hm := hm

theorem spares_isFault : Spares isFault where
  gap _ := rfl
  symbol _ _ := rfl
  keyword _ _ := rfl
  word _ _ hw _ := hw.isFault

theorem plain_gap (g : SqlText) : Plain (gap g) :=
  fun _ hp => hp.gap g

theorem plain_word (h : IsWord w) : Plain (token (Lexeme.wordKind w) w) :=
  fun _ hp => hp.word _ _ (.word h) (Lexeme.wordKind_isMarker w)

theorem plain_sign {c : Char} (hc : c = '(' ∨ c = ')' ∨ c = ',') : Plain (sign c) := by
  intro p hp
  rcases hc with rfl | rfl | rfl
  · exact hp.symbol .leftParen _
  · exact hp.symbol .rightParen _
  · exact hp.symbol .comma _

/-- A word is a token of the kind of its spelling. -/
theorem IsWord.kind_eq (h : IsWord w) (hfit : (token k w).Fits rest) : k = Lexeme.wordKind w := by
  obtain ⟨-, c, u, hl, hs⟩ := hfit
  obtain rfl : w = c :: u := hl
  rw [Lexeme.scan_of_startsWord (by simpa using h.1)] at hs
  obtain ⟨hk, hw, -⟩ := Lexeme.Scan.mk.inj hs
  exact hk.symm.trans (congrArg Lexeme.wordKind hw)

theorem IsWord.ends (h : IsWord v) (hfit : (token k v).Fits rest) :
    rest.head?.any Text.continuesWord = false := by
  obtain ⟨-, c, w, hl, hs⟩ := hfit
  obtain rfl : v = c :: w := hl
  rw [Lexeme.scan_of_startsWord (by simpa using h.1)] at hs
  obtain ⟨-, -, hr⟩ := Lexeme.Scan.mk.inj hs
  rw [← hr]
  exact any_head?_dropWhile _ _

/-- What starts with the first character of a word is a word. -/
theorem exists_word (hs : Sound ss) (h : (spell ss).head?.any Text.startsWord = true) :
    ∃ v ss', ss = token (Lexeme.wordKind v) v :: ss' ∧ IsWord v := by
  cases hs with
  | nil => cases h
  | @cons c cs fits rest =>
    obtain ⟨d, w, hd⟩ := List.exists_cons_of_ne_nil fits.text_ne_nil
    rw [spell_cons, hd] at h
    have hstart : Text.startsWord d = true := by simpa using h
    cases c with
    | gap g =>
      obtain rfl : g = d :: w := hd
      rcases fits.gap_front with ⟨e, t, he, hstop⟩ | ⟨t, he⟩
      · obtain rfl : d = e := (List.cons.inj he).1
        simp [Text.isStop, Text.continuesWord_of_startsWord hstart] at hstop
      · obtain rfl : d = '-' := (List.cons.inj he).1
        exact absurd hstart (by decide)
    | token k t =>
      obtain rfl : t = d :: w := hd
      obtain ⟨-, e, u, hl, hscan⟩ := fits
      obtain ⟨rfl, rfl⟩ : d = e ∧ w = u := List.cons.inj hl
      rw [Lexeme.scan_of_startsWord hstart] at hscan
      obtain ⟨rfl, hw, -⟩ := Lexeme.Scan.mk.inj hscan
      have hword : (d :: (w ++ spell cs)).takeWhile Text.continuesWord = d :: w := hw
      refine ⟨d :: w, cs, by rw [hword], by simpa using hstart, ?_⟩
      rw [← hword]
      exact List.all_eq_true.1 List.all_takeWhile

theorem kind_of_minus (h : (token k ['-']).Fits rest) : k = .symbol .minus := by
  obtain ⟨-, c, w, hl, hs⟩ := h
  obtain ⟨rfl, rfl⟩ : '-' = c ∧ [] = w := List.cons.inj hl
  change Lexeme.scanSymbol '-' rest = _ at hs
  unfold Lexeme.scanSymbol at hs
  split at hs
  all_goals first | contradiction | exact (Lexeme.Scan.mk.inj hs).1.symm

theorem gap_minus (h : (gap ('-' :: '-' :: g)).Fits rest) :
    (gap ('-' :: '-' :: '-' :: g)).Fits rest := by
  have hg := h.2
  refine ⟨by simp, ?_⟩
  have hline : ('-' : Char) ≠ '\n' := by decide
  simp only [List.cons_append, Lexeme.scanGap_lineStart, Lexeme.scanGap_lineComment, if_neg hline] at hg ⊢
  simpa using hg

/-- Soft cells start with a minus sign only if they start with a comment. -/
theorem Soft.comment (soft : Soft ss) (hs : Sound ss) (hm : (spell ss).head? = some '-') :
    ∃ t ss', ss = gap ('-' :: '-' :: t) :: ss' := by
  have hg := soft.minus hm
  cases hs with
  | nil => cases hg
  | @cons c cs fits rest =>
    cases c with
    | token k t => cases hg
    | gap g =>
      rcases fits.gap_front with ⟨c, t, rfl, hc⟩ | ⟨t, rfl⟩
      · obtain rfl : c = '-' := by simpa using hm
        exact absurd hc (by decide)
      · exact ⟨t, cs, rfl⟩

/-- How a token before cells is read: it stays apart, or a word behind it runs into it, or it is a minus sign
and starts the comment behind it. -/
inductive Joined : Kind → SqlText → List Cell → List Cell → Prop
  | apart {k : Kind} {w : SqlText} {ss : List Cell} (fits : (token k w).Fits (spell ss)) :
      Joined k w ss (token k w :: ss)
  | meld {k k' : Kind} {w v : SqlText} {ss : List Cell} (front : Wordy k w) (back : IsWord v)
      (both : Wordy k' (w ++ v)) (marker : k'.isMarker = k.isMarker)
      (fits : (token k' (w ++ v)).Fits (spell ss)) :
      Joined k w (token (Lexeme.wordKind v) v :: ss) (token k' (w ++ v) :: ss)
  | swallow {t : SqlText} {ss : List Cell} (fits : (gap ('-' :: '-' :: '-' :: t)).Fits (spell ss)) :
      Joined (.symbol .minus) ['-'] (gap ('-' :: '-' :: t) :: ss) (gap ('-' :: '-' :: '-' :: t) :: ss)

namespace Joined

theorem spelled (h : Joined k w ss bs) : spell bs = w ++ spell ss := by
  cases h with
  | apart fits => rfl
  | meld front back both marker fits => simp
  | swallow fits => rfl

theorem sound (h : Joined k w ss bs) (hs : Sound ss) : Sound bs := by
  cases h with
  | apart fits => exact .cons fits hs
  | meld front back both marker fits => exact .cons fits (sound_cons_iff.1 hs).2
  | swallow fits => exact .cons fits (sound_cons_iff.1 hs).2

theorem isFault (h : Joined k w ss bs) (hk : k.isFault = false) (hf : ∀ c ∈ ss, c.isFault = false) :
    ∀ c ∈ bs, c.isFault = false := by
  cases h with
  | apart fits => exact List.forall_mem_cons.2 ⟨hk, hf⟩
  | meld front back both marker fits =>
    exact List.forall_mem_cons.2 ⟨both.isFault, (List.forall_mem_cons.1 hf).2⟩
  | swallow fits => exact List.forall_mem_cons.2 ⟨rfl, (List.forall_mem_cons.1 hf).2⟩

/-- A word or name before a word runs into it. -/
theorem of_wordy (front : Wordy k w) (hb : w.head?.any Text.isBlank = false) (back : IsWord v)
    (hs : Sound (token (Lexeme.wordKind v) v :: ss)) :
    ∃ k', Joined k w (token (Lexeme.wordKind v) v :: ss) (token k' (w ++ v) :: ss) := by
  obtain ⟨k', hk', hm⟩ := front.append back.2
  refine ⟨k', .meld front back hk' hm (hk'.fits ?_ ?_)⟩
  · cases w with
    | nil => cases front with | word isWord => exact absurd isWord.1 (by simp)
    | cons c w => exact hb
  · exact back.ends (sound_cons_iff.1 hs).1

/-- The token is not involved, or it has not the property and neither has the word behind it. -/
theorem settles (hj : Joined k w ss bs) (hp : Spares p)
    (hblind : ∀ k' u, Wordy k' u → k'.isMarker = k.isMarker → p (token k' u) = false)
    (h : Settles p os ss) : Settles p (token k w :: os) bs := by
  cases hj with
  | apart fits => exact .keep fits h
  | @meld k k' w v ss front back both marker fits =>
    exact .meld front back both fits ⟨hblind k w front rfl,
      hp.word _ _ (.word back) (Lexeme.wordKind_isMarker v), hblind k' _ both marker⟩ h
  | swallow fits => exact .swallow fits (hp.symbol _ _) h

end Joined

/-- A token before a text that at most a word or the minus sign runs into. -/
theorem Soft.joined (soft : Soft ss) (hs : Sound ss) (hfit : (token k w).Fits rest)
    (hk : k.isFault = false) : ∃ bs, Joined k w ss bs := by
  by_cases hword : (w.head?.any Lexeme.opensWord = true ∧
      (spell ss).head?.any Text.continuesWord = true)
  · obtain ⟨hopen, hcont⟩ := hword
    have front := hfit.wordy hk hopen
    have hstart : (spell ss).head?.any Text.startsWord = true := by
      have hin := soft.inWord
      cases hs : spell ss with
      | nil => simp [hs] at hcont
      | cons c t =>
        rw [hs] at hcont hin
        simp [Text.staysInWord] at hcont hin
        simpa using hin hcont
    obtain ⟨v, ss, rfl, back⟩ := exists_word hs hstart
    have hb : w.head?.any Text.isBlank = false := by
      obtain ⟨hbare, c, u, hl, -⟩ := hfit
      obtain rfl : w = c :: u := hl
      have := (Lexeme.bare_cons_iff.1 hbare).1
      simpa using this
    obtain ⟨k', hj⟩ := Joined.of_wordy front hb back hs
    exact ⟨_, hj⟩
  · by_cases hminus : w = ['-'] ∧ (spell ss).head? = some '-'
    · obtain ⟨rfl, hm⟩ := hminus
      obtain ⟨t, ss, rfl⟩ := soft.comment hs hm
      rw [kind_of_minus hfit]
      exact ⟨_, .swallow (gap_minus (sound_cons_iff.1 hs).1)⟩
    · refine ⟨_, .apart (Lexeme.Fits.standsOff hfit hk ?_ ?_ ?_ ?_)⟩
      · exact fun j hj hh => absurd hh (soft.joint j hj)
      · intro _
        have he := soft.ends
        refine ⟨fun hh => ?_, fun hh => ?_, fun hh => ?_⟩
        · exact absurd (he.digit hh) (by simp)
        · exact absurd (he.fraction hh) (by simp [Text.startsFraction])
        · exact absurd (he.power hh) (by simp [Text.startsPower])
      · exact fun ho hc => absurd ⟨ho, hc⟩ hword
      · exact fun hw hh => absurd ⟨hw, hh⟩ hminus

/-- Behind a token soft cells can stand in any place, unless a number before an `e` could take a minus sign
in. -/
theorem Soft.standsIn (soft : Soft ss) (hw : w ≠ [])
    (he : (w = ['e'] ∨ w = ['E']) → (spell ss).head? ≠ some '-') (r : SqlText) :
    StandsIn (w ++ r) (w ++ spell ss) := by
  match w with
  | [] => exact absurd rfl hw
  | c :: d :: w => exact .of_take_two rfl
  | [c] =>
    refine ⟨⟨id, fun hf => ?_, fun hpow => ?_⟩, fun _ _ => id, id, id, id⟩
    · by_cases hc : c = '.'
      · subst hc
        exact absurd (soft.ends.digit hf) (by simp)
      · rw [List.singleton_append, Text.startsFraction_of_ne hc] at hf
        cases hf
    · rw [List.singleton_append, Text.startsPower, Bool.and_eq_true] at hpow
      obtain ⟨hc, hnext⟩ := hpow
      have hce : [c] = ['e'] ∨ [c] = ['E'] := by simpa using hc
      cases hs : spell ss with
      | nil => simp [hs] at hnext
      | cons d t =>
        have hminus := he hce
        have hplus := soft.joint '+' (by decide)
        have hdigit := soft.ends.digit
        rw [hs] at hnext hminus hplus hdigit
        have hd : (d.isDigit = true ∨ d = '+') ∨ d = '-' := by simpa using hnext
        rcases hd with (hd | rfl) | rfl
        · exact absurd (hdigit (by simpa using hd)) (by simp)
        · exact absurd rfl hplus
        · exact absurd rfl hminus

namespace Settles

/-- A token before an `e` that a minus sign has come to stand behind: a number without a power of ten takes
both in, which is a fault. -/
theorem before_power {e : Char} {r u : SqlText} (hfit : (token k w).Fits (e :: r))
    (hk : k.isFault = false) (hp : ∀ c, c.isFault = true → p c = false) (he : e = 'e' ∨ e = 'E') (h : Settles p os ss)
    (hss : spell ss = e :: '-' :: u) (hu : u.head?.any Char.isDigit = false) :
    ∃ ss', Settles p (token k w :: os) ss' ∧ ss'.head?.any isGap = false := by
  have hcont : Text.continuesWord e = true := by
    rcases he with rfl | rfl
    · decide
    · decide
  obtain ⟨hbare, c, t, hl, hscan⟩ := id hfit
  obtain rfl : w = c :: t := hl
  by_cases hc : c.isDigit = true
  · -- Only a number can tell the two rests apart.
    have hbare' : Lexeme.Bare (c :: (t ++ spell ss)) := by
      refine Lexeme.bare_cons_iff.2 ⟨(Lexeme.bare_cons_iff.1 hbare).1, ?_, ?_⟩
      · rintro rfl
        cases hc
      · rintro rfl
        cases hc
    rw [Lexeme.scan_of_isDigit hc, Lexeme.scanNumber_eq] at hscan
    obtain ⟨hkind, htext, hrest⟩ := Lexeme.Scan.mk.inj hscan
    have hnew := Numeral.scan_before_power he hrest hu
    rw [htext, ← hss, List.cons_append] at hnew
    rcases hnew with hnew | hnew
    · refine ⟨_, .keep ⟨hbare', c, t, rfl, ?_⟩ h, rfl⟩
      rw [Lexeme.scan_of_isDigit hc, Lexeme.scanNumber_eq, hnew, hkind, htext]
    · have hcells := ofText_cons hbare'
      rw [Lexeme.scan_of_isDigit hc, Lexeme.scanNumber_eq] at hcells
      refine ⟨ofText (c :: (t ++ spell ss)), .wreck (sound_ofText _) ?_ ?_, ?_⟩
      · rw [spell_ofText, spell_cons, ← h.spelled]
        rfl
      · have hfault : (Lexeme.numberKind (Numeral.scan (c :: (t ++ spell ss))).1).isFault = true := by
          rw [Lexeme.numberKind, if_pos hnew]
          rfl
        rw [hcells]
        exact ⟨_, List.mem_cons_self, hfault, hp _ hfault⟩
      · rw [hcells]
        rfl
  · refine ⟨_, .keep (Lexeme.Fits.standsOff hfit hk ?_ ?_ ?_ ?_) h, rfl⟩
    · rw [hss]
      exact fun j hj hh => absurd hh (Text.head?_ne_of_mem_joints hcont j hj)
    · exact fun hd => absurd (by simpa using hd) hc
    · exact fun _ _ => by simpa using hcont
    · rw [hss]
      rintro - ⟨⟩
      rcases he with he | he
      · cases he
      · cases he

/-- A piece before a text that at most a word or the minus sign runs into. -/
theorem tail (hs : Sound (as ++ token k w :: bs)) (hf : ∀ c ∈ as, c.isFault = false)
    (hfault : ∀ c, c.isFault = true → p c = false) (soft : Soft ss) (hss : Sound ss)
    (hj : Joined k w ss ss₁) (h : Settles p os ss₁) :
    ∃ ss', Settles p (as ++ os) ss' ∧ (as ≠ [] → Replaces (as ++ token k w :: bs) ss') := by
  have hcs := hs.of_append
  have hfit := (sound_cons_iff.1 hcs).1
  have hspell := hj.spelled
  by_cases he : (w = ['e'] ∨ w = ['E']) ∧ (spell ss).head? = some '-'
  · -- Behind the `e` stands a comment, so what is before the `e` matters.
    obtain ⟨hw, hminus⟩ := he
    rcases List.eq_nil_or_concat as with rfl | ⟨as, c, rfl⟩
    · exact ⟨ss₁, h, fun hn => absurd rfl hn⟩
    rw [List.concat_eq_append, List.append_assoc, List.singleton_append] at hs ⊢
    have hc := hs.of_append
    have hfits := (sound_cons_iff.1 hc).1
    obtain ⟨ss₂, h₂, hr₂⟩ : ∃ ss₂, Settles p (c :: os) ss₂ ∧
        Replaces (c :: token k w :: bs) ss₂ := by
      cases c with
      | gap g =>
        obtain ⟨ss₂, h₂, hg⟩ := h.gap hfits hcs.spell_ne_nil
        refine ⟨ss₂, h₂, ?_, fun _ => .inl hg⟩
        rw [h₂.spelled]
        exact hfits.standsIn_gap _ _
      | token k₁ w₁ =>
        obtain ⟨t, ss, rfl⟩ := soft.comment hss hminus
        obtain ⟨e, rfl, he⟩ : ∃ e, w = [e] ∧ (e = 'e' ∨ e = 'E') := by
          rcases hw with rfl | rfl
          · exact ⟨'e', rfl, .inl rfl⟩
          · exact ⟨'E', rfl, .inr rfl⟩
        obtain ⟨ss₂, h₂, -⟩ := h.before_power hfits (hf (token k₁ w₁) (by simp)) hfault he hspell rfl
        refine ⟨ss₂, h₂, ?_, fun hg => nomatch hg⟩
        have hnew : spell ss₂ = w₁ ++ spell ss₁ := by
          rw [h₂.spelled, spell_cons, h.spelled]
          rfl
        rw [hnew, hspell]
        refine .of_take_two ?_
        obtain ⟨d, v, hd⟩ := List.exists_cons_of_ne_nil hfits.text_ne_nil
        obtain rfl : w₁ = d :: v := hd
        cases v with
        | nil => rfl
        | cons d' v => rfl
    obtain ⟨ss', h', hr'⟩ := h₂.keep_all hs (fun d hd => hf d (by simp [hd])) (List.cons_ne_nil _ _) hr₂
    refine ⟨ss', h', fun _ => ?_⟩
    rwa [List.append_assoc]
  · have hr₁ : Replaces (token k w :: bs) ss₁ := by
      refine ⟨?_, fun hg => nomatch hg⟩
      rw [hspell, spell_cons]
      exact soft.standsIn hfit.text_ne_nil (fun hw hm => he ⟨hw, hm⟩) _
    obtain ⟨ss', h', hr'⟩ := h.keep_all hs hf (List.cons_ne_nil _ _) hr₁
    exact ⟨ss', h', fun _ => hr'⟩

end Settles

end JetAdapter.Cell
