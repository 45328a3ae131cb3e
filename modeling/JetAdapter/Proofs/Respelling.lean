import JetAdapter.Proofs.Lookahead

/-!
# Texts with other markers

A parameter is marked by `?` in one text and by a name such as `@p0` in another.  `Respelled` says of two
texts that they are the same but for such differences; where in the texts the markers stand does not
matter, it may be inside quotes or comments.

Almost nothing that is scanned can tell two such texts apart, since no scanner looks further ahead than one
character that starts a marker, and none goes on at such a character.  `scanGap_stable` and `scan_stable`
say so of the rest behind a gap and behind a token, and together they say that a lexeme that fits before a
rest fits before the same rest with other markers (`Fits.respelled`).  There is one exception.  An `@` that
is a token of its own would take a further `@` in.
-/

namespace JetAdapter

/-! ### Markers in texts -/

/-- The spelling of a marker: `?`, or a name behind an `@`. -/
inductive MarkerText : SqlText → Prop
  | placeholder : MarkerText ['?']
  | named {name : SqlText} (nonempty : name ≠ []) (word : ∀ c ∈ name, Text.continuesWord c = true) :
      MarkerText ('@' :: name)

/-- Whether markers may start with a character. -/
def StartsMarker (c : Char) : Prop :=
  c = '?' ∨ c = '@'

instance : DecidablePred StartsMarker :=
  fun c => inferInstanceAs (Decidable (c = '?' ∨ c = '@'))

theorem MarkerText.eq_cons {m : SqlText} (h : MarkerText m) :
    ∃ c t, m = c :: t ∧ StartsMarker c := by
  cases h with
  | placeholder => exact ⟨'?', [], rfl, .inl rfl⟩
  | named nonempty word => exact ⟨'@', _, rfl, .inr rfl⟩

theorem MarkerText.length_pos {m : SqlText} (h : MarkerText m) : 0 < m.length := by
  obtain ⟨c, t, rfl, -⟩ := h.eq_cons
  exact Nat.succ_pos _

/-- A character that neither starts a marker nor goes on with a name is in no marker. -/
theorem MarkerText.forall_ne {c : Char} {m : SqlText} (h : MarkerText m) (hc : Text.continuesWord c = false)
    (hs : ¬ StartsMarker c) : ∀ d ∈ m, d ≠ c := by
  rintro d hd rfl
  cases h with
  | placeholder =>
    obtain rfl : d = '?' := by simpa using hd
    exact hs (.inl rfl)
  | named nonempty word =>
    rcases List.mem_cons.1 hd with rfl | hd
    · exact hs (.inr rfl)
    · rw [word d hd] at hc
      cases hc

/-- Whether two texts differ at most in the spelling of markers. -/
inductive Respelled : SqlText → SqlText → Prop
  | nil : Respelled [] []
  | char (c : Char) {t u : SqlText} (rest : Respelled t u) : Respelled (c :: t) (c :: u)
  | marker {m n t u : SqlText} (hm : MarkerText m) (hn : MarkerText n) (rest : Respelled t u) :
      Respelled (m ++ t) (n ++ u)

namespace Respelled

variable {c : Char} {s t u : SqlText}

theorem symm (h : Respelled t u) : Respelled u t := by
  induction h with
  | nil => exact .nil
  | char c rest ih => exact .char c ih
  | marker hm hn rest ih => exact .marker hn hm ih

theorem append_left (s : SqlText) (h : Respelled t u) : Respelled (s ++ t) (s ++ u) := by
  induction s with
  | nil => exact h
  | cons c s ih => exact .char c ih

theorem refl (t : SqlText) : Respelled t t := by
  have h := append_left t .nil
  rwa [List.append_nil] at h

/-- Respelled texts start with the same character, or both with a marker. -/
theorem front (h : Respelled t u) : t = [] ∧ u = [] ∨
    (∃ c t' u', t = c :: t' ∧ u = c :: u' ∧ Respelled t' u') ∨
    ∃ c d t' u', t = c :: t' ∧ u = d :: u' ∧ StartsMarker c ∧ StartsMarker d := by
  cases h with
  | nil => exact .inl ⟨rfl, rfl⟩
  | char c rest => exact .inr (.inl ⟨c, _, _, rfl, rfl, rest⟩)
  | marker hm hn rest =>
    obtain ⟨c, m', rfl, hc⟩ := hm.eq_cons
    obtain ⟨d, n', rfl, hd⟩ := hn.eq_cons
    exact .inr (.inr ⟨c, d, _, _, rfl, rfl, hc, hd⟩)

theorem eq_nil (h : Respelled [] u) : u = [] := by
  rcases h.front with ⟨-, hu⟩ | ⟨c, t', u', ht, -⟩ | ⟨c, d, t', u', ht, -⟩
  · exact hu
  · cases ht
  · cases ht

/-- A character that starts no marker stays. -/
theorem eq_cons (hc : ¬ StartsMarker c) (h : Respelled (c :: t) u) :
    ∃ v, u = c :: v ∧ Respelled t v := by
  rcases h.front with ⟨ht, -⟩ | ⟨d, t', u', ht, hu, hr⟩ | ⟨d, e, t', u', ht, -, hd, -⟩
  · cases ht
  · cases ht
    exact ⟨u', hu, hr⟩
  · cases ht
    exact absurd hd hc

theorem head?_ne (hc : ¬ StartsMarker c) (h : Respelled t u) (ht : t.head? ≠ some c) :
    u.head? ≠ some c := by
  intro hu
  obtain ⟨v, rfl⟩ := List.head?_eq_some_iff.1 hu
  obtain ⟨w, rfl, -⟩ := h.symm.eq_cons hc
  exact ht rfl

theorem not_startsMarker (h : Respelled t u) (ht : ∀ c ∈ t.head?, ¬ StartsMarker c) :
    ∀ c ∈ u.head?, ¬ StartsMarker c := by
  intro c hc
  rcases h.front with ⟨-, rfl⟩ | ⟨d, t', u', rfl, rfl, -⟩ | ⟨d, e, t', u', rfl, -, hd, -⟩
  · cases hc
  · exact ht c hc
  · exact absurd hd (ht d rfl)

end Respelled

section Standing

variable {p : Char → Bool} {s t u : SqlText}

theorem takeWhile_respelled (hq : p '?' = false) (ha : p '@' = false) (h : Respelled t s) :
    t.takeWhile p = s.takeWhile p := by
  induction h with
  | nil => rfl
  | char c rest ih => rw [List.takeWhile_cons, List.takeWhile_cons, ih]
  | marker hm hn rest =>
    have hp : ∀ {c}, StartsMarker c → p c = false := by
      rintro c (rfl | rfl)
      · exact hq
      · exact ha
    obtain ⟨c, m', rfl, hc⟩ := hm.eq_cons
    obtain ⟨d, n', rfl, hd⟩ := hn.eq_cons
    rw [List.cons_append, List.cons_append, List.takeWhile_cons_of_neg (by simp [hp hc]),
      List.takeWhile_cons_of_neg (by simp [hp hd])]

theorem any_head?_respelled (hq : p '?' = false) (ha : p '@' = false) (h : Respelled t s)
    (hs : s.head?.any p = true) : t.head?.any p = true := by
  refine Classical.byContradiction fun ht => ?_
  have hn := takeWhile_eq_nil_iff.2 (Bool.eq_false_iff.2 ht)
  rw [takeWhile_respelled hq ha h, takeWhile_eq_nil_iff, hs] at hn
  cases hn

theorem not_startsMarker_of_mem_joints {c : Char} (h : c ∈ Text.joints) : ¬ StartsMarker c := by
  rintro (rfl | rfl)
  · exact absurd h (by decide)
  · exact absurd h (by decide)

theorem Respelled.head?_eq {c : Char} (hc : ¬ StartsMarker c) (h : Respelled t u)
    (hu : u.head? = some c) : t.head? = some c := by
  obtain ⟨u, rfl⟩ := List.head?_eq_some_iff.1 hu
  obtain ⟨t, rfl, -⟩ := h.symm.eq_cons hc
  rfl

/-- No token can tell respelled rests apart. -/
theorem Respelled.standsIn (h : Respelled t u) : Text.StandsIn t u := by
  refine ⟨⟨any_head?_respelled (by decide) (by decide) h, fun hf => ?_, fun hp => ?_⟩,
    fun c hc => h.head?_eq (not_startsMarker_of_mem_joints hc),
    any_head?_respelled (by decide) (by decide) h, any_head?_respelled (by decide) (by decide) h,
    h.head?_eq (by decide)⟩
  · obtain ⟨u, rfl⟩ : ∃ v, u = '.' :: v := by
      rw [Text.startsFraction.eq_def] at hf
      split at hf
      · exact ⟨_, rfl⟩
      · cases hf
    obtain ⟨t, rfl, ht⟩ := h.symm.eq_cons (by decide)
    exact any_head?_respelled (by decide) (by decide) ht.symm hf
  · cases u with
    | nil => cases hp
    | cons c u =>
      rw [Text.startsPower, Bool.and_eq_true] at hp
      obtain ⟨t, rfl, ht⟩ := h.symm.eq_cons (c := c) (by
        rintro (rfl | rfl)
        · cases hp.1
        · cases hp.1)
      rw [Text.startsPower, Bool.and_eq_true]
      exact ⟨hp.1, any_head?_respelled (by decide) (by decide) ht.symm hp.2⟩

end Standing

/-! ### Lexemes -/

namespace Lexeme

theorem scanGap_marker {c : Char} (hc : StartsMarker c) (t : SqlText) :
    scanGap .blanks (c :: t) = ([], c :: t) := by
  rcases hc with rfl | rfl
  · exact scanGap_token (by decide) (by simp) (by simp)
  · exact scanGap_token (by decide) (by simp) (by simp)

theorem Bare.respelled {r r' : SqlText} (h : Bare r) (hr : Respelled r r') : Bare r' := by
  rcases hr.front with ⟨-, rfl⟩ | ⟨c, t, u, rfl, rfl, hu⟩ | ⟨c, d, t, u, -, rfl, -, hd⟩
  · rfl
  · obtain ⟨hb, hdash, hslash⟩ := bare_cons_iff.1 h
    exact bare_cons_iff.2 ⟨hb, fun hc => hu.head?_ne (by decide) (hdash hc),
      fun hc => hu.head?_ne (by decide) (hslash hc)⟩
  · exact scanGap_marker hd u

/-- Where a gap ends, it ends also before a respelled rest. -/
theorem scanGap_stable {place : GapPlace} {t g r r' : SqlText} (h : scanGap place t = (g, r))
    (hr : Respelled r r') : scanGap place (g ++ r') = (g, r') := by
  by_cases hn : r = []
  · have htext := scanGap_text place t
    rw [h] at htext
    subst hn
    rw [hr.eq_nil, ← h]
    exact congrArg _ htext
  · exact scanGap_append_bare h hn ((bare_of_scanGap h).respelled hr)

theorem continuesWord_eq_false_of_startsMarker {c : Char} (h : StartsMarker c) :
    Text.continuesWord c = false := by
  rcases h with rfl | rfl
  · decide
  · decide

variable {c : Char} {t w r r' : SqlText} {k : Kind} {l : Lexeme} {rest rest' : SqlText}

/-- A lexeme fits also before a respelled rest, an `@` of its own only where no further one comes to stand
behind it. -/
theorem Fits.respelled (h : l.Fits rest) (hr : Respelled rest rest')
    (hat : l.text = ['@'] → rest'.head? ≠ some '@') : l.Fits rest' := by
  obtain ⟨hg, c, w, hl, hs⟩ := h
  refine ⟨scanGap_stable hg (hr.append_left l.text), c, w, hl, ?_⟩
  rw [hl] at hs hat ⊢
  refine scan_stable hs hr.standsIn.joint (fun _ => hr.standsIn.toEndsNumber)
    (fun _ => hr.standsIn.word) (fun _ hn => ?_) fun _ => hat
  subst hn
  exact hr.eq_nil

/-- In the place of a marker fits any other that is scanned before the respelled rest. -/
theorem Fits.remarked {m : SqlText} (h : l.Fits rest) (hl : MarkerText l.text) (hm : MarkerText m)
    (hr : Respelled rest rest')
    (hs : ∃ c w, m = c :: w ∧ scan c (w ++ rest') = ⟨k, m, rest'⟩) : Fits ⟨k, l.gap, m⟩ rest' :=
  ⟨scanGap_stable h.1 (.marker hl hm hr), hs⟩

/-! ### The first token -/

theorem scanGap_lineComment_append (h : ∀ c ∈ w, c ≠ '\n') (t : SqlText) :
    (scanGap .lineComment (w ++ t)).2 = (scanGap .lineComment t).2 := by
  induction w with
  | nil => rfl
  | cons c w ih =>
    rw [List.cons_append, scanGap_lineComment, if_neg (h c List.mem_cons_self)]
    exact ih fun d hd => h d (List.mem_cons_of_mem c hd)

theorem scanGap_blockComment_append (h : ∀ c ∈ w, c ≠ '*') (t : SqlText) :
    (scanGap .blockComment (w ++ t)).2 = (scanGap .blockComment t).2 := by
  induction w with
  | nil => rfl
  | cons c w ih =>
    rw [List.cons_append, scanGap_blockComment fun hc => absurd hc (h c List.mem_cons_self)]
    exact ih fun d hd => h d (List.mem_cons_of_mem c hd)

/-- Behind their first gaps respelled texts are respelled, also if there are markers in the gaps. -/
theorem scanGap_respelled (place : GapPlace) {t u : SqlText} (h : Respelled t u) :
    Respelled (scanGap place t).2 (scanGap place u).2 := by
  match h with
  | .nil => cases place <;> exact .nil
  | .marker hm hn rest =>
    have := hm.length_pos
    cases place with
    | blanks =>
      obtain ⟨c, m', rfl, hc⟩ := hm.eq_cons
      obtain ⟨d, n', rfl, hd⟩ := hn.eq_cons
      rw [List.cons_append, List.cons_append, scanGap_marker hc, scanGap_marker hd]
      exact .marker hm hn rest
    | lineComment =>
      rw [scanGap_lineComment_append (hm.forall_ne (by decide) (by decide)),
        scanGap_lineComment_append (hn.forall_ne (by decide) (by decide))]
      exact scanGap_respelled .lineComment rest
    | blockComment =>
      rw [scanGap_blockComment_append (hm.forall_ne (by decide) (by decide)),
        scanGap_blockComment_append (hn.forall_ne (by decide) (by decide))]
      exact scanGap_respelled .blockComment rest
  | @Respelled.char c t u rest =>
    cases place with
    | blanks =>
      by_cases hb : Text.isBlank c
      · rw [scanGap_blank hb, scanGap_blank hb]
        exact scanGap_respelled .blanks rest
      by_cases hd : c = '-' ∧ t.head? = some '-'
      · obtain ⟨rfl, ht⟩ := hd
        obtain ⟨t, rfl⟩ := List.head?_eq_some_iff.1 ht
        obtain ⟨u, rfl, hu⟩ := rest.eq_cons (by decide)
        exact scanGap_respelled .lineComment hu
      by_cases hs : c = '/' ∧ t.head? = some '*'
      · obtain ⟨rfl, ht⟩ := hs
        obtain ⟨t, rfl⟩ := List.head?_eq_some_iff.1 ht
        obtain ⟨u, rfl, hu⟩ := rest.eq_cons (by decide)
        exact scanGap_respelled .blockComment hu
      have hd' : c = '-' → t.head? ≠ some '-' := fun hc ht => hd ⟨hc, ht⟩
      have hs' : c = '/' → t.head? ≠ some '*' := fun hc ht => hs ⟨hc, ht⟩
      rw [scanGap_token (by simpa using hb) hd' hs', scanGap_token (by simpa using hb)
        (fun hc => rest.head?_ne (by decide) (hd' hc)) fun hc => rest.head?_ne (by decide) (hs' hc)]
      exact .char c rest
    | lineComment =>
      rw [scanGap_lineComment, scanGap_lineComment]
      exact scanGap_respelled _ rest
    | blockComment =>
      by_cases he : c = '*' ∧ t.head? = some '/'
      · obtain ⟨rfl, ht⟩ := he
        obtain ⟨t, rfl⟩ := List.head?_eq_some_iff.1 ht
        obtain ⟨u, rfl, hu⟩ := rest.eq_cons (by decide)
        exact scanGap_respelled .blanks hu
      have he' : c = '*' → t.head? ≠ some '/' := fun hc ht => he ⟨hc, ht⟩
      rw [scanGap_blockComment he',
        scanGap_blockComment fun hc => rest.head?_ne (by decide) (he' hc)]
      exact scanGap_respelled .blockComment rest
termination_by t.length

/-- Only words are keywords. -/
theorem scan_eq_scanWord_or (c : Char) : (∀ t, scan c t = scanWord (c :: t)) ∨
    ∀ t k, (scan c t).kind.isKeyword k = false := by
  by_cases hc : Text.startsWord c = true
  · exact .inl (scan_of_startsWord hc)
  · refine .inr fun t k => ?_
    rcases scan_cases c t with ⟨hw, -⟩ | heq | hk
    · exact absurd hw hc
    · rw [heq]
      rcases scanSymbol_kind c t with ⟨s, hk⟩ | hk | ⟨d, hk⟩
      · rw [hk]
        rfl
      · rw [hk]
        rfl
      · rw [hk]
        rfl
    · cases hkind : (scan c t).kind with
      | keyword k' => rw [hkind] at hk; cases hk
      | _ => rfl

theorem isKeyword_of_scanGap_nil {k : Keyword} (h : (scanGap .blanks t).2 = []) :
    ((lex t).head?.any fun l => l.kind.isKeyword k) = false := by
  rw [lex]
  split
  · next gap he => simp [Kind.isKeyword]
  · next gap c r he =>
    rw [he] at h
    cases h

theorem isKeyword_of_scanGap_cons {k : Keyword} (h : (scanGap .blanks t).2 = c :: r) :
    ((lex t).head?.any fun l => l.kind.isKeyword k) = (scan c r).kind.isKeyword k := by
  rw [lex_of_scanGap (Prod.ext rfl h), List.head?_cons, Option.any_some]

theorem isKeyword_scan_of_startsMarker (hc : StartsMarker c) (t : SqlText) (k : Keyword) :
    (scan c t).kind.isKeyword k = false := by
  rcases hc with rfl | rfl
  · rfl
  · rcases scan_eq_scanWord_or '@' with hw | hn
    · rw [hw]
      rfl
    · exact hn t k

/-- Respelled texts start with the same keyword, if with any. -/
theorem isKeyword_respelled (h : Respelled t r) (k : Keyword) :
    ((lex t).head?.any fun l => l.kind.isKeyword k)
      = (lex r).head?.any fun l => l.kind.isKeyword k := by
  rcases (scanGap_respelled .blanks h).front with
    ⟨ht, hu⟩ | ⟨c, t', u', ht, hu, hr⟩ | ⟨c, d, t', u', ht, hu, hc, hd⟩
  · rw [isKeyword_of_scanGap_nil ht, isKeyword_of_scanGap_nil hu]
  · rw [isKeyword_of_scanGap_cons ht, isKeyword_of_scanGap_cons hu]
    rcases scan_eq_scanWord_or c with hw | hn
    · rw [hw, hw, scanWord, scanWord, takeWhile_respelled (by decide) (by decide) (.char c hr)]
    · rw [hn, hn]
  · rw [isKeyword_of_scanGap_cons ht, isKeyword_of_scanGap_cons hu,
      isKeyword_scan_of_startsMarker hc, isKeyword_scan_of_startsMarker hd]

end Lexeme

end JetAdapter
