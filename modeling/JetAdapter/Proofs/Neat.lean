import JetAdapter.Proofs.Rounds
import JetAdapter.Proofs.Twins

/-!
# Neat cells

Cells are neat if they are spaced, each is one by itself, and they start and end with tokens.  What the rules write
is neat because what they take from a query is: neat cells stay neat in a call, between parentheses, and behind a
comma or a blank.

Neat cells with the same tokens in the place of one stretch of twins make alike edits (`Query.Twins.editsAlike`), if
they start and end with tokens that may stand wherever the first and the last one of the stretch may.
-/

namespace JetAdapter

open Cell (Leads IsSpaced IsWhole)
open Token (stretch row)

/-! ### What touches what -/

/-- Whether the sign may stand directly behind every token. -/
def Symbol.isDelimiter : Symbol → Bool
  | .leftParen | .rightParen | .comma | .semicolon => true
  | _ => false

namespace Kind

variable {free : Bool} {j k : Kind} {s : Symbol} {n : SqlText}

/-- Whether the token is a word. -/
def isWord : Kind → Bool
  | .identifier _ | .keyword _ => true
  | _ => false

theorem touches_delimiter (free : Bool) (hs : s.isDelimiter = true) (k : Kind) : k.touches free (.symbol s) = true := by
  have hruns : k.runsInto s = false := by
    cases s with
    | leftParen | rightParen | comma | semicolon =>
      cases k with
      | symbol s => cases s <;> rfl
      | _ => rfl
    | _ => cases hs
  show (!k.runsInto s) = true
  rw [hruns]
  rfl

theorem left_touches (k : Kind) : (symbol .leftParen).touches free k = true := by
  cases k with
  | symbol s => cases s <;> rfl
  | _ => rfl

/-- A keyword that no value starts with stands directly behind no token but an opening parenthesis or a comma. -/
theorem not_touches_keyword {y : Keyword} (hy : y.startsValue = false) (hl : k.isSymbol .leftParen = false)
    (hc : k.isSymbol .comma = false) : ¬ k.touches free (.keyword y) = true := by
  cases k with
  | symbol s =>
    cases s with
    | leftParen => cases hl
    | comma => cases hc
    | rightParen => exact Bool.false_ne_true
    | _ => exact Bool.eq_false_iff.1 hy
  | _ => exact Bool.false_ne_true

theorem not_touches_union (hl : k.isSymbol .leftParen = false) : ¬ k.touches false (.keyword .UNION) = true := by
  cases k with
  | symbol s =>
    cases s with
    | leftParen => cases hl
    | _ => exact Bool.false_ne_true
  | _ => exact Bool.false_ne_true

/-- A closing parenthesis may stand before what a word may stand before. -/
theorem right_touches (hk : k.isWord = true) (h : k.touches free j = true) :
    (symbol .rightParen).touches free j = true := by
  cases j with
  | symbol s => cases s <;> rfl
  | _ =>
    cases k with
    | identifier | keyword => exact h
    | _ => cases hk

/-- A comma may stand before what a word may stand before. -/
theorem comma_touches (hk : k.isWord = true) (h : k.touches free j = true) :
    (symbol .comma).touches free j = true := by
  cases j with
  | symbol s => cases s <;> rfl
  | _ =>
    cases k with
    | identifier | keyword => cases h
    | _ => cases hk

/-- An identifier may stand before what any other word or a closing parenthesis may stand before. -/
theorem identifier_touches (hk : k = .symbol .rightParen ∨ k.isWord = true) (h : k.touches free j = true) :
    (identifier n).touches free j = true := by
  cases j with
  | symbol s => cases s <;> rfl
  | _ =>
    cases k with
    | identifier | keyword => cases h
    | symbol s =>
      rcases hk with hk | hk
      · obtain rfl := Kind.symbol.inj hk
        cases h
      · cases hk
    | _ => simp [isWord] at hk

/-- An identifier may stand behind what any other word may stand behind. -/
theorem touches_identifier (hk : k.isWord = true) (h : j.touches free k = true) :
    j.touches free (.identifier n) = true := by
  cases k with
  | identifier | keyword =>
    cases j with
    | symbol s =>
      cases s with
      | comma => exact Bool.or_true _
      | _ => first | rfl | cases h
    | _ => cases h
  | _ => cases hk

end Kind

namespace Cell

variable {free : Bool} {N M P : List Cell} {d : Cell} {k : Kind} {t w : SqlText} {c : Char}

theorem leads_sign (hc : c = '(' ∨ c = ')' ∨ c = ',') (k : Kind) (t : SqlText) (cs : List Cell) :
    (token k t).Leads free (sign c :: cs) := by
  rw [leads_cons]
  rcases hc with rfl | rfl | rfl
  · exact Kind.touches_delimiter free (s := .leftParen) rfl k
  · exact Kind.touches_delimiter free (s := .rightParen) rfl k
  · exact Kind.touches_delimiter free (s := .comma) rfl k

theorem left_leads (k : Kind) (t : SqlText) (cs : List Cell) : (sign '(').Leads free (token k t :: cs) :=
  leads_cons.2 (Kind.left_touches k)

/-- A word that is no keyword may stand where a word stands. -/
theorem leads_word {c : Cell} {cs ds : List Cell} (hw : Keyword.ofWord? w = none) (hk : k.isWord = true)
    (h : c.Leads free (token k t :: cs)) : c.Leads free (word w :: ds) := by
  have hkind : Lexeme.wordKind w = .identifier w := by rw [Lexeme.wordKind, hw]
  rw [leads_cons] at h ⊢
  rw [word, hkind]
  cases c with
  | gap g => rfl
  | token k' t' => exact Kind.touches_identifier hk h

theorem Leads.word {cs : List Cell} (hw : Keyword.ofWord? w = none)
    (hk : k = .symbol .rightParen ∨ k.isWord = true) (h : (token k t).Leads free cs) :
    (word w).Leads free cs := by
  have hkind : Lexeme.wordKind w = .identifier w := by rw [Lexeme.wordKind, hw]
  intro d hd
  have hd := h d hd
  rw [Cell.word, hkind]
  cases d with
  | gap g => exact hd
  | token k' t' => exact Kind.identifier_touches hk hd

/-- Whether a token may stand before cells is a matter of its kind. -/
theorem Leads.respelled {t' : SqlText} {cs : List Cell} (h : (token k t).Leads free cs) :
    (token k t').Leads free cs := by
  intro d hd
  have hd := h d hd
  cases d with
  | gap g => exact hd
  | token k' u => exact hd

theorem Leads.right {cs : List Cell} (hk : k.isWord = true) (h : (token k t).Leads free cs) :
    (sign ')').Leads free cs := by
  intro d hd
  have hd := h d hd
  cases d with
  | gap g => exact hd
  | token k' t' => exact Kind.right_touches hk hd

theorem Leads.comma {cs : List Cell} (hk : k.isWord = true) (h : (token k t).Leads free cs) :
    (sign ',').Leads free cs := by
  intro d hd
  have hd := h d hd
  cases d with
  | gap g => exact hd
  | token k' t' => exact Kind.comma_touches hk hd

theorem leads_space (k : Kind) (t : SqlText) (cs : List Cell) : (token k t).Leads free (space :: cs) :=
  leads_cons.2 rfl

theorem isWhole_space : space.IsWhole :=
  ⟨by simp, ['x'], by simp, rfl⟩

/-! ### Neat cells -/

/-- Whether cells are spaced, each one by itself, and start and end with a token. -/
structure Neat (free : Bool) (N : List Cell) : Prop where
  whole : ∀ c ∈ N, c.IsWhole
  spaced : IsSpaced free N
  first : ∃ k t, N.head? = some (token k t)
  last : ∃ k t, N.getLast? = some (token k t)

theorem Neat.ne_nil (h : Neat free N) : N ≠ [] := by
  rintro rfl
  obtain ⟨k, t, hk⟩ := h.first
  cases hk

theorem Neat.token (h : (token k t).IsWhole) : Neat free [token k t] where
  whole := List.forall_mem_singleton.2 h
  spaced := isSpaced_cons_iff.2 ⟨leads_nil, isSpaced_nil⟩
  first := ⟨k, t, rfl⟩
  last := ⟨k, t, rfl⟩

theorem Neat.word (hw : IsWord w) (hb : w.head?.any Text.isBlank = false) : Neat free [word w] :=
  .token ⟨(Wordy.word hw).isFault, (Wordy.word hw).fits hb rfl⟩

theorem Neat.sign (hc : c = '(' ∨ c = ')' ∨ c = ',') : Neat free [sign c] := by
  refine .token ⟨?_, fits_sign hc []⟩
  rcases hc with rfl | rfl | rfl
  · rfl
  · rfl
  · rfl

theorem Neat.append (hN : Neat free N) (hM : Neat free M) (hc : N.getLast? = some d) (h : d.Leads free M) :
    Neat free (N ++ M) where
  whole := List.forall_mem_append.2 ⟨hN.whole, hM.whole⟩
  spaced := by
    refine isSpaced_append_iff.2 ⟨hN.spaced, hM.spaced, fun c hd => ?_⟩
    obtain rfl := Option.some.inj (hc.symm.trans hd)
    exact h
  first := by
    obtain ⟨k, t, hk⟩ := hN.first
    exact ⟨k, t, by rw [List.head?_append, hk]; rfl⟩
  last := by
    obtain ⟨k, t, hk⟩ := hM.last
    exact ⟨k, t, by rw [List.getLast?_append, hk]; rfl⟩

/-- Neat cells behind other ones and a blank. -/
theorem Neat.blank (hN : Neat free N) (hM : Neat free M) : Neat free (N ++ Cell.space :: M) where
  whole := List.forall_mem_append.2 ⟨hN.whole, List.forall_mem_cons.2 ⟨isWhole_space, hM.whole⟩⟩
  spaced := by
    refine isSpaced_append_iff.2 ⟨hN.spaced, isSpaced_cons_iff.2 ⟨?_, hM.spaced⟩, fun c hc => ?_⟩
    · obtain ⟨k, t, hk⟩ := hM.first
      intro d hd
      rw [hk] at hd
      cases hd
      rfl
    · obtain ⟨k, t, hk⟩ := hN.last
      rw [hk] at hc
      cases hc
      exact leads_space k t M
  first := by
    obtain ⟨k, t, hk⟩ := hN.first
    exact ⟨k, t, by rw [List.head?_append, hk]; rfl⟩
  last := by
    obtain ⟨k, t, hk⟩ := hM.last
    exact ⟨k, t, by rw [List.getLast?_append, List.getLast?_cons, hk]; rfl⟩

theorem Neat.then_sign (hN : Neat free N) (hc : c = '(' ∨ c = ')' ∨ c = ',') : Neat free (N ++ [Cell.sign c]) := by
  obtain ⟨k, t, hk⟩ := hN.last
  exact hN.append (.sign hc) hk (leads_sign hc k t [])

theorem Neat.isSpaced_space (hN : Neat free N) : IsSpaced free (N ++ [Cell.space]) := by
  refine isSpaced_append_iff.2 ⟨hN.spaced, isSpaced_cons_iff.2 ⟨leads_nil, isSpaced_nil⟩, fun c hc => ?_⟩
  obtain ⟨k, t, hk⟩ := hN.last
  obtain rfl := Option.some.inj (hk.symm.trans hc)
  exact leads_space k t []

/-- One text behind another, with a comma and a blank between them. -/
theorem Neat.comma (hN : Neat free N) (hM : Neat free M) : Neat free (N ++ Cell.sign ',' :: Cell.space :: M) := by
  simpa using (hN.then_sign (.inr (.inr rfl))).blank hM

theorem Neat.parens (hP : Neat free P) : Neat free (Cell.sign '(' :: (P ++ [Cell.sign ')'])) := by
  refine (Neat.sign (.inl rfl)).append (hP.then_sign (.inr (.inl rfl))) rfl ?_
  obtain ⟨k, t, hk⟩ := hP.first
  obtain ⟨cs, rfl⟩ := List.head?_eq_some_iff.1 hk
  exact left_leads k t _

/-- A call of a function. -/
theorem Neat.call (hw : IsWord w) (hb : w.head?.any Text.isBlank = false) (hP : Neat free P) :
    Neat free (Cell.word w :: Cell.sign '(' :: (P ++ [Cell.sign ')'])) := by
  exact (Neat.word hw hb).append hP.parens rfl (leads_sign (.inl rfl) _ _ _)

theorem getLast?_call (w : SqlText) (P : List Cell) :
    (Cell.word w :: Cell.sign '(' :: (P ++ [Cell.sign ')'])).getLast? = some (Cell.sign ')') := by
  rw [← List.cons_append, ← List.cons_append, List.getLast?_concat]

/-- What comes first and last is a matter of the tokens. -/
theorem Neat.head?_eq (h : Neat free N) : N.head? = (N.filter isToken).head? := by
  obtain ⟨k, t, hk⟩ := h.first
  obtain ⟨cs, rfl⟩ := List.head?_eq_some_iff.1 hk
  rfl

theorem Neat.getLast?_eq (h : Neat free N) : N.getLast? = (N.filter isToken).getLast? := by
  obtain ⟨k, t, hk⟩ := h.last
  obtain ⟨cs, rfl⟩ := List.getLast?_eq_some_iff.1 hk
  rw [List.filter_append]
  simp [isToken, isGap]

/-! ### Neat cells in two texts -/

/-- Whether neat cells have the same tokens. -/
structure NeatTwins (free : Bool) (N N' : List Cell) : Prop where
  neat : Neat free N
  neat' : Neat free N'
  tokens : N'.filter isToken = N.filter isToken

namespace NeatTwins

variable {N' M' P' : List Cell}

theorem head?_eq (h : NeatTwins free N N') : N'.head? = N.head? := by
  rw [h.neat'.head?_eq, h.tokens, ← h.neat.head?_eq]

theorem getLast?_eq (h : NeatTwins free N N') : N'.getLast? = N.getLast? := by
  rw [h.neat'.getLast?_eq, h.tokens, ← h.neat.getLast?_eq]

theorem leads_iff (h : NeatTwins free N N') : d.Leads free N' ↔ d.Leads free N := by
  rw [Leads, Leads, h.head?_eq]

theorem refl (h : Neat free N) : NeatTwins free N N :=
  ⟨h, h, rfl⟩

theorem append (hN : NeatTwins free N N') (hM : NeatTwins free M M') (hd : N.getLast? = some d)
    (h : d.Leads free M) : NeatTwins free (N ++ M) (N' ++ M') where
  neat := hN.neat.append hM.neat hd h
  neat' := hN.neat'.append hM.neat' (hN.getLast?_eq.trans hd) (hM.leads_iff.2 h)
  tokens := by rw [List.filter_append, List.filter_append, hN.tokens, hM.tokens]

theorem blank (hN : NeatTwins free N N') (hM : NeatTwins free M M') :
    NeatTwins free (N ++ Cell.space :: M) (N' ++ Cell.space :: M') where
  neat := hN.neat.blank hM.neat
  neat' := hN.neat'.blank hM.neat'
  tokens := by
    rw [List.filter_append, List.filter_append, hN.tokens]
    exact congrArg _ hM.tokens

theorem comma (hN : NeatTwins free N N') (hM : NeatTwins free M M') :
    NeatTwins free (N ++ Cell.sign ',' :: Cell.space :: M) (N' ++ Cell.sign ',' :: Cell.space :: M') where
  neat := hN.neat.comma hM.neat
  neat' := hN.neat'.comma hM.neat'
  tokens := by
    rw [List.filter_append, List.filter_append, hN.tokens]
    exact congrArg (fun cs => _ ++ Cell.sign ',' :: cs) hM.tokens

theorem parens (hP : NeatTwins free P P') :
    NeatTwins free (Cell.sign '(' :: (P ++ [Cell.sign ')'])) (Cell.sign '(' :: (P' ++ [Cell.sign ')'])) where
  neat := hP.neat.parens
  neat' := hP.neat'.parens
  tokens := by
    rw [List.filter_cons_of_pos rfl, List.filter_cons_of_pos rfl, List.filter_append, List.filter_append, hP.tokens]

theorem call (hw : IsWord w) (hb : w.head?.any Text.isBlank = false) (hP : NeatTwins free P P') :
    NeatTwins free (Cell.word w :: Cell.sign '(' :: (P ++ [Cell.sign ')']))
      (Cell.word w :: Cell.sign '(' :: (P' ++ [Cell.sign ')'])) where
  neat := hP.neat.call hw hb
  neat' := hP.neat'.call hw hb
  tokens := congrArg (Cell.word w :: ·) hP.parens.tokens

end NeatTwins

end Cell

open Cell (Neat NeatTwins)

/-! ### Stretches of twins -/

namespace Query

variable {free : Bool} {q q' : Query} {tail tail' : List Cell} {l : Layout} {as bs ts : List Token}
  {N N' : List Cell} {t u : Token} {d : Cell} {B : Borders}

theorem IsRead.neat (h : q.IsRead tail) (hs : IsSpaced free (Token.cells q.tokens ++ tail))
    (hq : q.tokens = as ++ (ts ++ bs)) (hts : ts ≠ []) : Neat free (stretch ts) := by
  obtain ⟨t, ts, rfl⟩ := List.exists_cons_of_ne_nil hts
  rw [(h.split hq).1] at hs
  refine ⟨fun c hc => h.isWhole c ?_, hs.right.left, ⟨_, _, rfl⟩, ?_⟩
  · rw [hq]
    exact Token.mem_cells_of_mem_stretch hc
  · rw [Token.getLast?_stretch]
    exact ⟨_, _, by rw [List.getLast?_eq_some_getLast (List.cons_ne_nil t ts)]; rfl⟩

/-- A token stops at one place. -/
theorem IsRead.eq_of_stop (h : q.IsRead tail) (ht : t ∈ q.tokens) (hu : u ∈ q.tokens) (hstop : t.stop = u.stop) :
    t = u := by
  have hbehind : ∀ {as bs : List Token} {t u : Token}, q.tokens = as ++ t :: bs → u ∈ bs → t.stop < u.stop := by
    intro as bs t u hq hu
    have hplaced := h.placed
    rw [hq, Token.placed_append] at hplaced
    have hle := hplaced.2.2.le_start u hu
    obtain ⟨cs, ds, rfl⟩ := List.append_of_mem hu
    have hne := (h.fits (show q.tokens = (as ++ t :: cs) ++ u :: ds by rw [hq]; simp)).text_ne_nil
    obtain ⟨c, w, hc⟩ := List.exists_cons_of_ne_nil hne
    have hpos := c.utf8Size_pos
    have hsize : u.stop = u.start + Text.byteSize u.text := rfl
    rw [Token.text_cell] at hc
    rw [hsize, hc, Text.byteSize_cons]
    omega
  obtain ⟨as, bs, hq⟩ := List.append_of_mem ht
  rw [hq] at hu
  rcases List.mem_append.1 hu with hu | hu
  · obtain ⟨cs, ds, rfl⟩ := List.append_of_mem hu
    have := hbehind (show q.tokens = cs ++ u :: (ds ++ t :: bs) by rw [hq]; simp)
      (show t ∈ ds ++ t :: bs by simp)
    omega
  · rcases List.mem_cons.1 hu with rfl | hu
    · rfl
    · have := hbehind hq hu
      omega

/-- What comes behind a stretch may stand behind its last token. -/
theorem IsRead.leads (h : q.IsRead tail) (hs : IsSpaced free (Token.cells q.tokens ++ tail))
    (hq : q.tokens = as ++ (ts ++ bs)) (hu : ts.getLast? = some u) :
    u.cell.Leads free (Token.cells bs ++ tail) := by
  obtain ⟨us, rfl⟩ := List.getLast?_eq_some_iff.1 hu
  rw [(h.split_one (show q.tokens = (as ++ us) ++ u :: bs by rw [hq]; simp)).1] at hs
  exact hs.leads

/-- Every token may stand before what is a delimiter, or could not stand where it does without a gap. -/
theorem IsRead.leads_any (h : q.IsRead tail) (hs : IsSpaced free (Token.cells q.tokens ++ tail))
    (hq : q.tokens = as ++ (ts ++ bs)) (hu : ts.getLast? = some u)
    (hb : ∀ v ∈ bs.head?, (∃ s : Symbol, s.isDelimiter = true ∧ v.isSymbol s = true) ∨
      ¬ u.kind.touches free v.kind = true) (k : Kind) (w : SqlText) :
    (Cell.token k w).Leads free (Token.cells bs ++ tail) := by
  have hlead := h.leads hs hq hu
  intro d hd
  have htouch := hlead d hd
  cases d with
  | gap g => exact htouch
  | token k' w' =>
    cases bs with
    | nil =>
      rcases h.tail with rfl | ⟨g, rfl⟩
      · cases hd
      · cases hd
    | cons b bs =>
      have hcell : b.cell = .token k' w' := by
        rw [Token.cells_cons] at hd
        unfold Cell.ofGap at hd
        split at hd
        · simpa using hd
        · cases hd
      obtain ⟨rfl, rfl⟩ := Cell.token.inj hcell
      rcases hb b rfl with ⟨s, hs, hsymbol⟩ | hnot
      · have hkind : b.kind = .symbol s := Kind.isSymbol_iff.1 hsymbol
        show k.touches free b.kind = true
        rw [hkind]
        exact Kind.touches_delimiter free hs k
      · exact absurd htouch hnot

/-- Neat cells in the place of a stretch. -/
theorem IsRead.makes (h : q.IsRead tail) (hq : q.tokens = as ++ (ts ++ bs)) (ht : ts.head? = some t) (hu : ts.getLast? = some u)
    (hearly : ¬ B.early as.length) (hkept : ¬ B.kept (2 * as.length + 2 * ts.length)) (hN : Neat free N)
    (hfirst : ∀ c : Cell, c.Leads free [t.cell] → c.Leads free N) (hd : N.getLast? = some d)
    (hlast : d.Leads free (Token.cells bs ++ tail)) :
    Splice.Makes free B (row q.tokens) tail ⟨2 * as.length + 1, 2 * as.length + 2 * ts.length, N⟩
      ⟨⟨t.start, u.stop⟩, Cell.spell N⟩ := by
  obtain ⟨us, hfront⟩ := List.head?_eq_some_iff.1 ht
  obtain ⟨vs, hback⟩ := List.getLast?_eq_some_iff.1 hu
  have hlength := congrArg List.length hfront
  have hlength' := congrArg List.length hback
  have hq₁ : q.tokens = as ++ t :: (us ++ bs) := by rw [hq, hfront]; rfl
  have hq₂ : q.tokens = (as ++ vs) ++ u :: bs := by rw [hq, hback]; simp
  rw [List.length_cons] at hlength
  rw [List.length_append, List.length_singleton] at hlength'
  have hstop : 2 * as.length + 2 * ts.length = 2 * (as ++ vs).length + 2 := by
    rw [List.length_append]
    omega
  have hrest : Splice.back (row q.tokens) (2 * as.length + 2 * ts.length) = Token.cells bs := by
    rw [show 2 * as.length + 2 * ts.length = 2 * (as ++ ts).length by rw [List.length_append]; omega, hq,
      ← List.append_assoc, Token.back_behind]
  refine ⟨⟨?_, ?_, ?_, ?_, ?_, hkept⟩, ⟨hN.whole, hN.spaced, ?_, .inl fun c hc => ?_⟩, ?_⟩
  · simp only
    omega
  · rw [Token.length_row, hq, List.length_append, List.length_append]
    simp only
    omega
  · intro j hj
    simp only at hj
    omega
  · intro j hj
    obtain rfl : as.length = j := by
      simp only at hj
      omega
    exact hearly
  · intro j hj
    simp only at hj
    omega
  · intro c hc
    simp only
    rw [hrest]
    obtain rfl := Option.some.inj (hd.symm.trans hc)
    exact hlast
  · simp only at hc ⊢
    rw [hq₁, Token.back_before] at hc
    rw [Cell.leads_append_of_ne_nil hN.ne_nil]
    exact hfirst c (Cell.leads_cons.2 (Cell.leads_cons.1 hc))
  · rw [Splice.edit]
    simp only
    rw [h.place_before hq₁, hstop, h.place_behind hq₂]

/-- No cells in the place of a stretch and the gap before it. -/
theorem IsRead.makes_nil (free : Bool) (h : q.IsRead tail) (hq : q.tokens = (as ++ [u]) ++ (ts ++ t :: bs))
    (hearly : B.early (as.length + 1)) (hends : ¬ B.early (as.length + 1 + ts.length))
    (hkept : ¬ B.kept (2 * (as.length + 1 + ts.length) + 1)) (ht : ∃ s : Symbol, s.isDelimiter ∧ t.kind = .symbol s) :
    Splice.Makes free B (row q.tokens) tail ⟨2 * (as.length + 1), 2 * (as.length + 1 + ts.length) + 1, []⟩
      ⟨⟨u.stop, t.start⟩, []⟩ := by
  have hq₁ : q.tokens = as ++ u :: (ts ++ t :: bs) := by rw [hq]; simp
  have hq₂ : q.tokens = (as ++ [u] ++ ts) ++ t :: bs := by rw [hq]; simp
  have hlength : as.length + 1 + ts.length = (as ++ [u] ++ ts).length := by simp; omega
  refine ⟨⟨?_, ?_, ?_, ?_, ?_, hkept⟩, ⟨nofun, Cell.isSpaced_nil, nofun, .inl fun c _ => ?_⟩, ?_⟩
  · simp only
    omega
  · rw [Token.length_row, hq]
    simp only [List.length_append, List.length_cons, List.length_nil]
    omega
  · intro j hj
    obtain rfl : as.length + 1 = j := by
      simp only at hj
      omega
    exact hearly
  · intro j hj
    simp only at hj
    omega
  · intro j hj
    obtain rfl : as.length + 1 + ts.length = j := by
      simp only at hj
      omega
    exact hends
  · obtain ⟨s, hs, hk⟩ := ht
    rw [hlength, hq₂, Token.back_before, List.nil_append, List.cons_append, Cell.leads_cons, Token.cell, hk]
    cases c with
    | gap g => rfl
    | token k w => exact Kind.touches_delimiter free hs k
  · rw [Splice.edit]
    simp only
    rw [hlength, h.place_before hq₂, show 2 * (as.length + 1) = 2 * as.length + 2 by omega, h.place_behind hq₁]
    rfl

/-- A stretch with both layouts. -/
theorem Twins.neat (h : q.Twins free l tail tail' q') (hq : q.tokens = as ++ (ts ++ bs)) (hts : ts ≠ []) :
    NeatTwins free (stretch ts) (stretch (ts.map (Token.relaid l))) where
  neat := h.read.neat h.spaced hq hts
  neat' := by
    have hq' : q'.tokens = as.map (Token.relaid l) ++ (ts.map (Token.relaid l) ++ bs.map (Token.relaid l)) := by
      rw [h.relaid.tokens, hq]
      simp
    exact h.read'.neat h.spaced' hq' (by simpa using hts)
  tokens := by
    rw [Token.filter_stretch fun _ => rfl, Token.filter_stretch fun _ => rfl, List.map_map]
    rfl

/-- Neat cells with the same tokens in the place of one stretch, before what may stand behind them. -/
theorem Twins.editsAlike_before (h : q.Twins free l tail tail' q') (hq : q.tokens = as ++ (ts ++ bs))
    (ht : ts.head? = some t) (hu : ts.getLast? = some u) (hearly : ¬ B.early as.length)
    (hkept : ¬ B.kept (2 * as.length + 2 * ts.length)) (hN : NeatTwins free N N')
    (hfirst : ∀ c : Cell, c.Leads free [t.cell] → c.Leads free N) (hd : N.getLast? = some d)
    (hlast : d.Leads free (Token.cells bs ++ tail))
    (hlast' : d.Leads free (Token.cells (bs.map (Token.relaid l)) ++ tail')) :
    Splice.EditsAlike free B (row q.tokens) tail (row q'.tokens) tail'
      ⟨⟨t.start, u.stop⟩, Cell.spell N⟩ ⟨⟨(t.relaid l).start, (u.relaid l).stop⟩, Cell.spell N'⟩ := by
  have hq' : q'.tokens = as.map (Token.relaid l) ++ (ts.map (Token.relaid l) ++ bs.map (Token.relaid l)) := by
    rw [h.relaid.tokens, hq]
    simp
  refine ⟨_, _, ⟨?_, ?_, hN.tokens⟩, h.read.makes hq ht hu hearly hkept hN.neat hfirst hd hlast,
    h.read'.makes hq' (t := t.relaid l) (u := u.relaid l) ?_ ?_ (by simpa using hearly)
      (by simpa using hkept) hN.neat' (fun c hc => ?_) (hN.getLast?_eq.trans hd) hlast'⟩
  · simp
  · simp
  · rw [List.head?_map, ht]
    rfl
  · rw [List.getLast?_map, hu]
    rfl
  · exact hN.leads_iff.2 (hfirst c hc)

/-- Neat cells with the same tokens in the place of one stretch. -/
theorem Twins.editsAlike (h : q.Twins free l tail tail' q') (hq : q.tokens = as ++ (ts ++ bs))
    (ht : ts.head? = some t) (hu : ts.getLast? = some u) (hearly : ¬ B.early as.length)
    (hkept : ¬ B.kept (2 * as.length + 2 * ts.length)) (hN : NeatTwins free N N')
    (hfirst : ∀ c : Cell, c.Leads free [t.cell] → c.Leads free N)
    (hd : N.getLast? = some d) (hlast : ∀ {cs : List Cell}, u.cell.Leads free cs → d.Leads free cs) :
    Splice.EditsAlike free B (row q.tokens) tail (row q'.tokens) tail'
      ⟨⟨t.start, u.stop⟩, Cell.spell N⟩ ⟨⟨(t.relaid l).start, (u.relaid l).stop⟩, Cell.spell N'⟩ := by
  have hq' : q'.tokens = as.map (Token.relaid l) ++ (ts.map (Token.relaid l) ++ bs.map (Token.relaid l)) := by
    rw [h.relaid.tokens, hq]
    simp
  refine h.editsAlike_before hq ht hu hearly hkept hN hfirst hd (hlast (h.read.leads h.spaced hq hu))
    (hlast (h.read'.leads h.spaced' hq' (u := u.relaid l) ?_))
  rw [List.getLast?_map, hu]
  rfl

/-- No cells in the place of one stretch and the gap before it. -/
theorem Twins.editsAlike_nil (h : q.Twins free l tail tail' q') (hq : q.tokens = (as ++ [u]) ++ (ts ++ t :: bs))
    (hearly : B.early (as.length + 1)) (hends : ¬ B.early (as.length + 1 + ts.length))
    (hkept : ¬ B.kept (2 * (as.length + 1 + ts.length) + 1)) (ht : ∃ s : Symbol, s.isDelimiter ∧ t.kind = .symbol s) :
    Splice.EditsAlike free B (row q.tokens) tail (row q'.tokens) tail' ⟨⟨u.stop, t.start⟩, []⟩
      ⟨⟨(u.relaid l).stop, (t.relaid l).start⟩, []⟩ := by
  have hq' : q'.tokens = (as.map (Token.relaid l) ++ [u.relaid l]) ++
      (ts.map (Token.relaid l) ++ t.relaid l :: bs.map (Token.relaid l)) := by
    rw [h.relaid.tokens, hq]
    simp
  have hmakes' := h.read'.makes_nil free hq' (B := B) (by simpa using hearly) (by simpa using hends) (by simpa using hkept) ht
  refine ⟨_, _, ?_, h.read.makes_nil free hq hearly hends hkept ht, hmakes'⟩
  exact ⟨by simp, by simp, rfl⟩

end Query

end JetAdapter
