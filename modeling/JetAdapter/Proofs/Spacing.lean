import Mathlib.Data.List.Chain
import JetAdapter.Proofs.Settling

/-!
# Spaced texts

In a spaced text words, numbers and quoted texts are set apart by gaps.  Without a gap a token may only stand
behind an opening parenthesis, before a sign that does not run into it, or behind a sign; but behind a closing
parenthesis no token that is no sign, and behind other signs no keyword, except that a comma stands before all
and every sign before those that a value starts with.  And no gap starts with the comment that a minus sign opens.

These are conditions on neighbours.  Cells that meet them, each of which is one by itself (`Cell.IsWhole`), are
read as they stand (`Cell.sound_append`): nothing runs into anything, however the cells came together.
-/

namespace JetAdapter

/-! ### Neighbours -/

/-- Whether a token runs into a sign directly behind it. -/
def Kind.runsInto : Kind → Symbol → Bool
  | .integer _, .dot | .float _, .dot => true
  | .symbol .lt, .eq | .symbol .lt, .gt | .symbol .lt, .gtEq | .symbol .gt, .eq | .symbol .bang, .eq => true
  | .symbol .minus, .minus | .symbol .slash, .star => true
  | .other c, .concat => c == '|'
  | _, _ => false

/-- Whether a value may start with a keyword. -/
def Keyword.startsValue : Keyword → Bool
  | .CASE | .CAST | .NOT | .NULL | .EXISTS | .ALL | .COUNT | .SUM | .AVG | .MIN | .MAX => true
  | _ => false

/-- Whether a token of the second kind may stand directly behind one of the first; a `UNION` behind a comma
only where that is `free`. -/
def Kind.touches (free : Bool) : Kind → Kind → Bool
  | k, .symbol s => !k.runsInto s
  | .symbol .leftParen, _ => true
  | .symbol .rightParen, _ => false
  | .symbol .comma, k => free || !k.isKeyword .UNION
  | .symbol _, .keyword y => y.startsValue
  | .symbol _, _ => true
  | _, _ => false

theorem Lexeme.numberKind_cases (n : Numeral) :
    (∃ f, numberKind n = .fault f) ∨ (∃ m, numberKind n = .integer m) ∨ ∃ x, numberKind n = .float x := by
  unfold numberKind
  split
  · exact .inl ⟨_, rfl⟩
  · split
    · exact .inr (.inl ⟨_, rfl⟩)
    · exact .inr (.inr ⟨_, rfl⟩)

/-- Only a sign is scanned as one. -/
theorem Lexeme.scan_eq_scanSymbol {c : Char} {t : SqlText} {s : Symbol}
    (h : (scan c t).kind = .symbol s) (t' : SqlText) : scan c t' = scanSymbol c t' := by
  have hnot : (scan c t).kind.hasContent = true → ∀ {p : Prop}, p := fun hc => by
    rw [h] at hc
    cases hc
  cases scan_form c with
  | quoted closing kind fault closes content eq =>
    refine hnot ?_
    rw [eq, scanQuoted]
    split
    · rcases content with hc | hc
      · rw [hc]
        rfl
      · rw [hc]
        rfl
    · rfl
  | date first eq =>
    refine hnot ?_
    rw [eq, scanDate]
    split
    · rfl
    · rfl
  | atSign first eq =>
    refine hnot ?_
    rw [eq]
    unfold scanAt
    split
    all_goals
      simp only
      split
      · rfl
      · rfl
  | number first eq =>
    refine hnot ?_
    rw [eq, scanNumber_eq]
    show (numberKind _).hasContent = true
    unfold numberKind
    split
    · rfl
    · split
      · rfl
      · rfl
  | word first eq =>
    rw [eq] at h
    change wordKind _ = _ at h
    rcases wordKind_eq ((c :: t).takeWhile Text.continuesWord) with hw | ⟨k, -, hw⟩
    · rw [hw] at h
      cases h
    · rw [hw] at h
      cases h
  | symbol first eq => exact eq t'

namespace Cell

variable {free : Bool} {c d : Cell} {cs as bs : List Cell} {k k' : Kind} {t t' g rest : SqlText}

/-- Whether the second cell may stand directly behind the first. -/
def touches (free : Bool) : Cell → Cell → Bool
  | .token k _, .token k' _ => k.touches free k'
  | .token _ _, .gap g => g.head? != some '-'
  | .gap _, .token _ _ => true
  | .gap _, .gap _ => false

/-- Whether every cell may stand behind the one before it. -/
def IsSpaced (free : Bool) (cs : List Cell) : Prop :=
  cs.IsChain fun c d => c.touches free d = true

instance : DecidablePred (IsSpaced free) := fun cs =>
  inferInstanceAs (Decidable (cs.IsChain fun c d => c.touches free d = true))

/-- Whether the first of some cells may stand behind a cell. -/
def Leads (free : Bool) (c : Cell) (cs : List Cell) : Prop :=
  ∀ d ∈ cs.head?, c.touches free d = true

@[simp] theorem leads_nil : c.Leads free [] :=
  fun _ hd => nomatch hd

@[simp] theorem leads_cons : c.Leads free (d :: cs) ↔ c.touches free d = true := by
  simp [Leads]

theorem leads_append_of_ne_nil (h : as ≠ []) : c.Leads free (as ++ bs) ↔ c.Leads free as := by
  cases as with
  | nil => exact absurd rfl h
  | cons d as => simp

theorem isSpaced_nil : IsSpaced free [] :=
  .nil

theorem isSpaced_cons_iff : IsSpaced free (c :: cs) ↔ c.Leads free cs ∧ IsSpaced free cs :=
  List.isChain_cons

theorem isSpaced_append_iff : IsSpaced free (as ++ bs) ↔
    IsSpaced free as ∧ IsSpaced free bs ∧ ∀ c ∈ as.getLast?, c.Leads free bs :=
  List.isChain_append

theorem IsSpaced.left (h : IsSpaced free (as ++ bs)) : IsSpaced free as :=
  (isSpaced_append_iff.1 h).1

theorem IsSpaced.right (h : IsSpaced free (as ++ bs)) : IsSpaced free bs :=
  (isSpaced_append_iff.1 h).2.1

theorem IsSpaced.leads (h : IsSpaced free (as ++ c :: bs)) : c.Leads free bs :=
  (isSpaced_cons_iff.1 h.right).1

/-! ### Signs -/

/-- The kind of a token that starts with one of these signs. -/
theorem Fits.kind_of_sign {c : Char} (h : (token k (c :: t)).Fits rest) :
    (c = '=' → k = .symbol .eq) ∧ (c = '>' → k = .symbol .gt ∨ k = .symbol .gtEq) ∧
      (c = '|' → k = .symbol .concat ∨ k = .other '|') ∧ (c = '-' → k = .symbol .minus) ∧
      (c = '*' → k = .symbol .star) ∧ (c = '.' → k = .symbol .dot) := by
  obtain ⟨-, d, w, hl, hs⟩ := h
  obtain ⟨rfl, rfl⟩ : c = d ∧ t = w := List.cons.inj hl
  have hkind : k = (Lexeme.scan c (t ++ rest)).kind := by rw [hs]
  refine ⟨?_, ?_, ?_, ?_, ?_, ?_⟩
  all_goals
    rintro rfl
    rw [hkind]
  · rfl
  · show (Lexeme.scanSymbol '>' _).kind = _ ∨ (Lexeme.scanSymbol '>' _).kind = _
    unfold Lexeme.scanSymbol
    split
    all_goals first | contradiction | exact .inr rfl | exact .inl rfl
  · show (Lexeme.scanSymbol '|' _).kind = _ ∨ (Lexeme.scanSymbol '|' _).kind = _
    unfold Lexeme.scanSymbol
    split
    all_goals first | contradiction | exact .inl rfl | exact .inr rfl
  · rfl
  · rfl
  · rfl

/-- A sign starts with no character that a word or the end of a quoted text has. -/
theorem Fits.head_of_symbol {s : Symbol} (h : (token (.symbol s) t).Fits rest) :
    ∃ c w, t = c :: w ∧ Text.continuesWord c = false ∧ ¬ Lexeme.IsClosing c := by
  obtain ⟨-, c, w, hl, hs⟩ := h
  refine ⟨c, w, hl, ?_⟩
  have hkind : (Lexeme.scan c (w ++ rest)).kind = .symbol s := by rw [hs]
  rw [Lexeme.scan_eq_scanSymbol hkind] at hkind
  unfold Lexeme.scanSymbol at hkind
  split at hkind
  case h_6 =>
    unfold Lexeme.charKind at hkind
    split at hkind
    all_goals cases hkind
    all_goals exact ⟨by decide, by simp [Lexeme.IsClosing]⟩
  all_goals exact ⟨by decide, by simp [Lexeme.IsClosing]⟩

/-! ### Cells by themselves -/

/-- Whether a cell is one by itself: a sound token at the end of a text, or a gap that has ended. -/
def IsWhole : Cell → Prop
  | gap g => g ≠ [] ∧ ∃ rest, rest ≠ [] ∧ Lexeme.scanGap .blanks (g ++ rest) = (g, rest)
  | token k t => k.isFault = false ∧ (token k t).Fits []

/-- A token is one by itself. -/
theorem Fits.alone (h : (token k t).Fits rest) (hk : k.isFault = false) : (token k t).IsWhole := by
  refine ⟨hk, Lexeme.Fits.standsOff h hk ?_ ?_ ?_ ?_⟩
  · intro j _ hj
    cases hj
  · exact fun _ => .nil
  · intro _ hw
    cases hw
  · intro _ hm
    cases hm

/-- A token that may stand behind another one leaves it as it is. -/
theorem IsWhole.fits_before (h : (token k t).IsWhole) (h' : (token k' t').Fits [])
    (touches : k.touches free k' = true) (rest : SqlText) : (token k t).Fits (t' ++ rest) := by
  obtain ⟨hk, hbare, c, w, hl, hs⟩ := h
  obtain rfl : t = c :: w := hl
  obtain ⟨d, u, rfl⟩ := List.exists_cons_of_ne_nil h'.text_ne_nil
  rw [List.append_nil] at hs
  obtain ⟨heq, hgt, hbar, hminus, hstar, hdot⟩ := h'.kind_of_sign
  have hbare' : Lexeme.Bare (c :: (w ++ (d :: u ++ rest))) := by
    have hb : Lexeme.Bare (c :: (w ++ [])) := hbare
    rw [Lexeme.bare_cons_iff] at hb ⊢
    cases w with
    | cons e w => exact hb
    | nil =>
      refine ⟨hb.1, ?_, ?_⟩
      · rintro rfl hd
        obtain rfl : d = '-' := by simpa using hd
        obtain rfl := (congrArg Lexeme.Scan.kind hs).symm
        obtain rfl := hminus rfl
        cases touches
      · rintro rfl hd
        obtain rfl : d = '*' := by simpa using hd
        obtain rfl := (congrArg Lexeme.Scan.kind hs).symm
        obtain rfl := hstar rfl
        cases touches
  -- A sign on its own does not go on with the next character.
  have hsymbol : Lexeme.scanSymbol c w = ⟨k, c :: w, []⟩ →
      Lexeme.scanSymbol c (w ++ (d :: u ++ rest)) = ⟨k, c :: w, d :: u ++ rest⟩ := by
    intro h
    unfold Lexeme.scanSymbol at h
    split at h
    case h_6 =>
      obtain ⟨rfl, hw, -⟩ := Lexeme.Scan.mk.inj h
      obtain rfl : [] = w := (List.cons.inj hw).2
      show Lexeme.scanSymbol c (d :: (u ++ rest)) = _
      rw [Lexeme.scanSymbol]
      · rfl
      all_goals
        rintro v rfl hv
        obtain rfl := (List.cons.inj hv).1
      · obtain rfl := heq rfl
        cases touches
      · rcases hgt rfl with rfl | rfl
        · cases touches
        · cases touches
      · obtain rfl := heq rfl
        cases touches
      · obtain rfl := heq rfl
        cases touches
      · rcases hbar rfl with rfl | rfl
        · cases touches
        · cases touches
    all_goals
      cases h
      rfl
  refine ⟨hbare', c, w, rfl, ?_⟩
  by_cases hsym : ∃ s, k = .symbol s
  · obtain ⟨s, rfl⟩ := hsym
    have hscan := Lexeme.scan_eq_scanSymbol (c := c) (t := w) (s := s) (by rw [hs])
    rw [hscan] at hs ⊢
    exact hsymbol hs
  -- Behind a token that is no sign there is a sign.
  obtain ⟨s, rfl⟩ : ∃ s, k' = .symbol s := by
    cases k' with
    | symbol s => exact ⟨s, rfl⟩
    | _ =>
      cases k with
      | symbol s => exact absurd ⟨s, rfl⟩ hsym
      | _ => cases touches
  obtain ⟨d', u', hd', hword, hclosing⟩ := h'.head_of_symbol
  obtain ⟨rfl, rfl⟩ := List.cons.inj hd'
  have hcontinues : (d :: u ++ rest).head?.any Text.continuesWord = true →
      ([] : SqlText).head?.any Text.continuesWord = true := by
    intro hc
    rw [List.cons_append, List.head?_cons, Option.any_some, hword] at hc
    cases hc
  have hfault : k.isFault = true → ∀ {p : Prop}, p := fun hf => by
    rw [hk] at hf
    cases hf
  cases Lexeme.scan_form c with
  | quoted closing kind fault closes content eq =>
    rw [eq] at hs ⊢
    refine Lexeme.scanQuoted_stable hs (fun hd => ?_) fun hf => hfault hf
    obtain rfl : d = closing := by simpa using hd
    exact absurd closes hclosing
  | date first eq =>
    rw [eq] at hs ⊢
    exact Lexeme.scanDate_stable hs fun hf => hfault hf
  | atSign first eq =>
    rw [eq] at hs ⊢
    exact Lexeme.scanAt_stable hs hcontinues fun hf => hfault hf
  | number first eq =>
    rw [eq] at hs ⊢
    refine Lexeme.scanNumber_stable hs ⟨fun hd => ?_, fun hd => ?_, fun hd => ?_⟩
    · rw [List.cons_append, List.head?_cons, Option.any_some] at hd
      rw [Text.continuesWord_of_isDigit hd] at hword
      cases hword
    · by_cases hd' : d = '.'
      · obtain rfl := Kind.symbol.inj (hdot hd')
        have hkind : (Lexeme.scanNumber (c :: w)).kind = k := by rw [hs]
        rcases Lexeme.numberKind_cases (Numeral.scan (c :: w)).1 with ⟨f, h⟩ | ⟨n, h⟩ | ⟨x, h⟩
        · rw [← hkind, show (Lexeme.scanNumber (c :: w)).kind = .fault f from h] at hk
          cases hk
        · rw [← hkind, show (Lexeme.scanNumber (c :: w)).kind = .integer n from h] at touches
          cases touches
        · rw [← hkind, show (Lexeme.scanNumber (c :: w)).kind = .float x from h] at touches
          cases touches
      · rw [List.cons_append, Text.startsFraction_of_ne hd'] at hd
        cases hd
    · rw [List.cons_append, Text.startsPower, Bool.and_eq_true, Bool.or_eq_true, beq_iff_eq, beq_iff_eq] at hd
      rcases hd.1 with rfl | rfl
      · exact absurd hword (by decide)
      · exact absurd hword (by decide)
  | word first eq =>
    rw [eq] at hs ⊢
    exact Lexeme.scanWord_stable hs hcontinues
  | symbol first eq =>
    rw [eq] at hs ⊢
    exact hsymbol hs

/-- A gap that may stand behind a token leaves it as it is. -/
theorem IsWhole.fits_before_gap (h : (token k t).IsWhole) (hg : (gap g).Fits rest)
    (touches : g.head? ≠ some '-') (rest' : SqlText) : (token k t).Fits (g ++ rest') := by
  refine Lexeme.Fits.standsIn h.2 h.1 (.of_stops ?_)
  rcases hg.gap_front with ⟨c, u, rfl, hstop⟩ | ⟨u, rfl⟩
  · simpa [Text.Stops] using hstop
  · exact absurd rfl touches

theorem IsWhole.fits_gap (h : (gap g).IsWhole) (hr : Lexeme.Bare rest) : (gap g).Fits rest := by
  obtain ⟨hne, r, hr', hscan⟩ := h
  exact ⟨hne, Lexeme.scanGap_append_bare hscan hr' hr⟩

/-- Spaced cells, each of which is one by itself, are sound before sound ones. -/
theorem sound_append (has : ∀ c ∈ as, c.IsWhole) (hbs : Sound bs) (hf : ∀ c ∈ bs, c.isFault = false)
    (h : IsSpaced free (as ++ bs)) : Sound (as ++ bs) := by
  induction as with
  | nil => exact hbs
  | cons c as ih =>
    obtain ⟨hwhole, has⟩ := List.forall_mem_cons.1 has
    obtain ⟨hleads, hspaced⟩ := isSpaced_cons_iff.1 h
    have hrest := ih has hspaced
    have hfault : ∀ d ∈ as ++ bs, d.isFault = false := by
      intro d hd
      rcases List.mem_append.1 hd with hd | hd
      · cases d with
        | gap g => rfl
        | token k t => exact (has _ hd).1
      · exact hf d hd
    refine .cons ?_ hrest
    rw [List.append_eq] at *
    generalize as ++ bs = ds at hleads hrest hfault
    cases hrest with
    | nil =>
      cases c with
      | gap g => exact hwhole.fits_gap rfl
      | token k t => exact hwhole.2
    | @cons d ds fits rest =>
      have htouch := leads_cons.1 hleads
      rw [spell_cons]
      cases d with
      | gap g =>
        cases c with
        | gap g' => cases htouch
        | token k t => exact hwhole.fits_before_gap fits (by simpa [touches] using htouch) _
      | token k' t' =>
        cases c with
        | gap g' => exact hwhole.fits_gap (Lexeme.Fits.bare fits)
        | token k t => exact hwhole.fits_before (fits.alone (hfault _ List.mem_cons_self)).2 htouch _

end Cell

end JetAdapter
