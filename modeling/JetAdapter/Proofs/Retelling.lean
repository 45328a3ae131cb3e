import JetAdapter.Proofs.Excerpts

/-!
# Texts with a nested clause

When the joins of a clause are nested, what is inserted is read as what it says: parentheses, and words that stand
apart.  Only the name of a table at the end of the clause may run into a word behind it, and then that word is lost.
All other tokens are read as before, those of the clause inside matching parentheses (`Query.IsRead.ofText_nested`).

`Refits D N` says that the cells `N` may take the place of `D` before anything that fits there.
-/

namespace JetAdapter

open Token (Level Run Placed stretch cells lead written)

/-! ### Cells for cells -/

namespace Cell

open Text (StandsIn)

variable {c : Cell} {cs D D' N N' Z : List Cell} {g : SqlText}

/-- The kinds of the tokens among some cells. -/
def kinds (cs : List Cell) : List Kind :=
  cs.filterMap fun
    | gap _ => none
    | token k _ => some k

@[simp] theorem kinds_nil : kinds [] = [] := rfl

@[simp] theorem kinds_gap (g : SqlText) (cs : List Cell) : kinds (gap g :: cs) = kinds cs := rfl

@[simp] theorem kinds_token (k : Kind) (t : SqlText) (cs : List Cell) : kinds (token k t :: cs) = k :: kinds cs := rfl

@[simp] theorem kinds_append (cs ds : List Cell) : kinds (cs ++ ds) = kinds cs ++ kinds ds :=
  List.filterMap_append ..

@[simp] theorem kinds_ofGap (g : SqlText) : kinds (ofGap g) = [] := by
  unfold ofGap
  split
  · rfl
  · rfl

/-- Whether cells may take the place of others before everything that may stand behind these, and before everything
that takes its place. -/
def Refits (D N : List Cell) : Prop :=
  ∀ ⦃Z Z' : List Cell⦄, Sound (D ++ Z) → Sound Z' → StandsIn (spell Z) (spell Z') →
    Sound (N ++ Z') ∧ StandsIn (spell (D ++ Z)) (spell (N ++ Z'))

/-- Sound cells stay so when others come to stand behind them. -/
theorem Sound.refit {as bs cs : List Cell} (h : Sound (as ++ bs)) (hf : ∀ c ∈ as, c.isFault = false)
    (hlast : as.getLast?.any isGap = false) (hcs : Sound cs) (hstands : StandsIn (spell bs) (spell cs)) :
    Sound (as ++ cs) :=
  (Settles.piece (p := fun _ => false) h hf hlast (.refl hcs) hstands).sound

/-- What starts with a gap does not go on with a word. -/
theorem Fits.head_gap {rest : SqlText} (h : (gap g).Fits rest) (r : SqlText) :
    (g ++ r).head?.any Text.continuesWord = false := by
  rcases h.gap_front with ⟨c, t, rfl, hc⟩ | ⟨t, rfl⟩
  · have hnot : ((Text.continuesWord c = false ∧ c ∉ Text.joints) ∧ c ≠ '.') ∧ c ≠ '-' := by
      simpa [Text.isStop] using hc
    simpa using hnot.1.1.1
  · exact (by decide : Text.continuesWord '-' = false)

/-- The cells behind a block that becomes a table of this name. -/
def namedCells (w : SqlText) : List Cell :=
  [Cell.sign ')', space, word "as".toList, space, word w]

/-- The name of a table before what does not go on with a word. -/
theorem sound_namedCells {w : SqlText} (hw : IsWord w) (hb : w.head?.any Text.isBlank = false) (hs : Sound Z)
    (hhead : (spell Z).head?.any Text.continuesWord = false) : Sound (namedCells w ++ Z) := by
  have hname : Settles (fun _ => false) (word w :: Z) (word w :: Z) :=
    .refl (.cons ((Wordy.word hw).fits hb hhead) hs)
  have has := (Writable.word (isWord_of_isAlpha (t := "as".toList) (by decide) (by decide)) (by decide)).settles
    (hname.space rfl) (stops_space _)
  exact ((has.space rfl).sign (.inr (.inl rfl))).sound

/-- A gap before tokens stays one before others. -/
theorem Sound.ofGap_refit {cs ds : List Cell} (h : Sound (ofGap g ++ cs)) (hne : cs ≠ []) (hds : Sound ds)
    (htoken : ∃ k t es, ds = token k t :: es) : Sound (ofGap g ++ ds) := by
  by_cases hg : g = []
  · rwa [ofGap, if_pos hg]
  · rw [ofGap, if_neg hg] at h ⊢
    obtain ⟨hfit, hrest⟩ := sound_cons_iff.1 h
    obtain ⟨c, cs, rfl⟩ := List.exists_cons_of_ne_nil hne
    obtain ⟨k, t, es, rfl⟩ := htoken
    exact .cons ⟨hfit.1, Lexeme.scanGap_append_bare hfit.2 hrest.spell_ne_nil (bare_of_sound hds rfl)⟩ hds

namespace Refits

theorem refl (hf : ∀ c ∈ D, c.isFault = false) (hlast : D.getLast?.any isGap = false) : Refits D D := by
  intro Z Z' hD hZ' hstands
  refine ⟨hD.refit hf hlast hZ' hstands, ?_⟩
  rw [spell_append, spell_append]
  exact hstands.append_left _

theorem append (h : Refits D N) (h' : Refits D' N') : Refits (D ++ D') (N ++ N') := by
  intro Z Z' hD hZ' hstands
  rw [List.append_assoc] at hD ⊢
  rw [List.append_assoc]
  obtain ⟨hsound, hstands'⟩ := h' hD.of_append hZ' hstands
  exact h hD hsound hstands'

/-- A parenthesis may stand before everything. -/
theorem sign {c : Char} (hc : c = '(' ∨ c = ')' ∨ c = ',') (h : Refits D N) : Refits D (Cell.sign c :: N) := by
  intro Z Z' hD hZ' hstands
  exact ⟨.cons (fits_sign hc _) (h hD hZ' hstands).1, .of_stops (stops_sign hc _)⟩

/-- A gap before a token. -/
theorem ofGap (hD : D ≠ []) (hN : ∃ k t cs, N = token k t :: cs) (h : Refits D N) :
    Refits (Cell.ofGap g ++ D) (Cell.ofGap g ++ N) := by
  intro Z Z' hsound hZ' hstands
  rw [List.append_assoc] at hsound ⊢
  rw [List.append_assoc]
  obtain ⟨hnew, hstands'⟩ := h hsound.of_append hZ' hstands
  refine ⟨hsound.ofGap_refit (by simp [hD]) hnew ?_, ?_⟩
  · obtain ⟨k, t, cs, rfl⟩ := hN
    exact ⟨k, t, _, rfl⟩
  · rw [spell_append _ (D ++ Z), spell_append _ (N ++ Z')]
    exact hstands'.append_left _

/-- The start of a table that is made of a block. -/
theorem select (hN : ∃ k t cs, N = token k t :: cs) (h : Refits D N) : Refits D (JoinChain.selectCells ++ N) := by
  intro Z Z' hD hZ' hstands
  refine ⟨?_, .of_stops (stops_sign (.inl rfl) _)⟩
  have hhead : (N ++ Z').head?.any isGap = false := by
    obtain ⟨k, t, cs, rfl⟩ := hN
    rfl
  have hrest : Settles (fun _ => false) (N ++ Z') (N ++ Z') := .refl (h hD hZ' hstands).1
  have hfrom := (Writable.word (isWord_of_isAlpha (t := "from".toList) (by decide) (by decide)) (by decide)).settles
    (hrest.space hhead) (stops_space _)
  have hstar : Writable [.token (.symbol .star) ['*']] := .of_fits ⟨rfl, '*', [], rfl, rfl⟩ rfl
  have hstar := hstar.settles (hfrom.space rfl) (stops_space _)
  have hselect := (Writable.word (isWord_of_isAlpha (t := "select".toList) (by decide) (by decide))
    (by decide)).settles (hstar.space rfl) (stops_space _)
  exact (hselect.sign (.inl rfl)).sound

end Refits

end Cell

/-! ### Cells of blocks -/

theorem Balanced.append {js ks : List Kind} (h : Balanced js) (h' : Balanced ks) : Balanced (js ++ ks) := by
  induction h with
  | nil => exact h'
  | plain left right _ ih => exact .plain left right ih
  | @group inner rest inside _ _ ih =>
    rw [List.cons_append, List.append_assoc, List.cons_append]
    exact .group inside ih

theorem Lexeme.isFault_wordKind (w : SqlText) : (wordKind w).isFault = false := by
  rcases wordKind_eq w with hk | ⟨k, -, hk⟩
  · rw [hk]
    rfl
  · rw [hk]
    rfl

/-- A word is no parenthesis. -/
theorem Balanced.word {ks : List Kind} (w : SqlText) (h : Balanced ks) : Balanced (Lexeme.wordKind w :: ks) := by
  rcases Lexeme.wordKind_eq w with hk | ⟨k, -, hk⟩
  · rw [hk]
    exact .plain nofun nofun h
  · rw [hk]
    exact .plain nofun nofun h

namespace Token

variable {as bs ts : List Token} {depth d e e' : Nat}

theorem Run.balancedIn (h : Run d ts e) (he : e = 0) : BalancedIn d (ts.map (·.kind)) := by
  induction h with
  | nil =>
    rw [he]
    exact .nil
  | opening paren _ _ ih =>
    have hk := Kind.isSymbol_iff.1 paren
    rw [List.map_cons, hk, BalancedIn.left_iff]
    exact ih he
  | closing paren _ _ ih =>
    have hk := Kind.isSymbol_iff.1 paren
    rw [List.map_cons, hk, BalancedIn.right_iff]
    exact ih he
  | plain left right _ _ ih =>
    rw [List.map_cons, BalancedIn.plain_iff]
    · exact ih he
    · intro hk
      simp [isSymbol, Kind.isSymbol, hk] at left
    · intro hk
      simp [isSymbol, Kind.isSymbol, hk] at right

/-- The parentheses of a level stretch match. -/
theorem Level.balanced (h : Level depth ts) : Balanced (ts.map (·.kind)) := by
  have hbalanced := h.excerpt.balancedIn rfl
  have hkinds : (Token.excerpt depth ts).map (·.kind) = ts.map (·.kind) := by
    cases ts with
    | nil => rfl
    | cons t ts =>
      show _ :: (ts.map _).map _ = _
      rw [List.map_map]
      rfl
  rwa [hkinds] at hbalanced

theorem Run.unique (h : Run d ts e) (h' : Run d ts e') : e = e' := by
  induction h with
  | nil =>
    cases h'
    rfl
  | opening paren _ _ ih =>
    cases h' with
    | opening _ _ rest => exact ih rest
    | closing paren' =>
      rw [isSymbol_eq_false_of_isSymbol paren (by decide)] at paren'
      cases paren'
    | plain left =>
      rw [paren] at left
      cases left
  | closing paren _ _ ih =>
    cases h' with
    | opening paren' =>
      rw [isSymbol_eq_false_of_isSymbol paren (by decide)] at paren'
      cases paren'
    | closing _ _ rest => exact ih rest
    | plain _ right =>
      rw [paren] at right
      cases right
  | plain left right _ _ ih =>
    cases h' with
    | opening paren' =>
      rw [left] at paren'
      cases paren'
    | closing paren' =>
      rw [right] at paren'
      cases paren'
    | plain _ _ _ rest => exact ih rest

theorem Level.of_append (h : Level depth (as ++ bs)) (has : Level depth as) : Level depth bs := by
  obtain ⟨e, hrun, hrest⟩ := h.run.of_append
  obtain rfl := hrun.unique has.run
  exact ⟨hrest, (List.forall_mem_append.1 h.le).2⟩

theorem stretch_append (has : as ≠ []) (bs : List Token) : stretch (as ++ bs) = stretch as ++ cells bs := by
  obtain ⟨t, ts, rfl⟩ := List.exists_cons_of_ne_nil has
  rw [List.cons_append, stretch_cons, stretch_cons, cells_append, List.cons_append]

theorem cells_eq (hts : ts ≠ []) : cells ts = Cell.ofGap (lead ts) ++ stretch ts := by
  obtain ⟨t, ts, rfl⟩ := List.exists_cons_of_ne_nil hts
  rw [cells_cons, lead, stretch_cons]

@[simp] theorem kinds_cells (ts : List Token) : Cell.kinds (cells ts) = ts.map (·.kind) := by
  induction ts with
  | nil => rfl
  | cons t ts ih => rw [cells_cons, Cell.kinds_append, Cell.kinds_ofGap, cell, Cell.kinds_token, ih]; rfl

@[simp] theorem kinds_stretch (ts : List Token) : Cell.kinds (stretch ts) = ts.map (·.kind) := by
  cases ts with
  | nil => rfl
  | cons t ts => rw [stretch_cons, cell, Cell.kinds_token, kinds_cells]; rfl

theorem refits_stretch (h : ∀ t ∈ ts, t.kind.isFault = false) : Cell.Refits (stretch ts) (stretch ts) :=
  .refl (forall_mem_stretch (fun _ => rfl) h) (isGap_getLast?_stretch ts)

theorem refits_cells (h : ∀ t ∈ ts, t.kind.isFault = false) : Cell.Refits (cells ts) (cells ts) := by
  refine .refl (fun c hc => ?_) ?_
  · obtain ⟨t, ht, hc⟩ := List.mem_flatMap.1 hc
    rcases List.mem_append.1 hc with hc | hc
    · unfold Cell.ofGap at hc
      split at hc
      · cases hc
      · rw [List.mem_singleton.1 hc]
        rfl
    · rw [List.mem_singleton.1 hc]
      exact h t ht
  · rw [getLast?_cells]
    cases ts.getLast? with
    | none => rfl
    | some t => rfl

end Token

namespace JoinTree

open Cell (Refits)

variable {b : JoinTree} {depth : Nat}

/-- The cells of a block that is nested to the left. -/
def nestedCells : JoinTree → List Cell
  | table ts => stretch ts
  | join left words j operand on condition =>
    if left.joins = 0 then stretch (join left words j operand on condition).tokens
    else Cell.sign '(' :: (left.nestedCells ++ Cell.sign ')' :: cells (words ++ j :: (operand ++ on :: condition)))

theorem spell_nestedCells (b : JoinTree) : Cell.spell b.nestedCells = b.nested := by
  induction b with
  | table ts => exact Token.spell_stretch ts
  | join left words j operand on condition ih =>
    rw [nestedCells, nested]
    split
    · exact Token.spell_stretch _
    · rw [Cell.spell_cons, Cell.spell_append, ih, Cell.spell_cons, Token.spell_cells]
      rfl

theorem exists_token_nestedCells (h : b.WellFormed depth) : ∃ k t cs, b.nestedCells = .token k t :: cs := by
  have hstretch : ∀ {ts : List Token}, ts ≠ [] → ∃ k t cs, stretch ts = .token k t :: cs := by
    intro ts hts
    obtain ⟨t, ts, rfl⟩ := List.exists_cons_of_ne_nil hts
    exact ⟨t.kind, t.text, cells ts, rfl⟩
  cases h with
  | table part => exact hstretch part.1
  | join shorter =>
    rw [nestedCells]
    split
    · exact hstretch (by simp [tokens])
    · exact ⟨_, _, _, rfl⟩

/-- A nested block takes the place of the block. -/
theorem refits_nestedCells (h : b.WellFormed depth) (hf : ∀ t ∈ b.tokens, t.kind.isFault = false) :
    Refits (stretch b.tokens) b.nestedCells := by
  induction h with
  | table => exact Token.refits_stretch hf
  | @join left words operand condition j on shorter operator joins named starts parts holds ih =>
    rw [nestedCells]
    split
    · exact Token.refits_stretch hf
    · rw [tokens_join] at hf ⊢
      obtain ⟨hleft, hrest⟩ := List.forall_mem_append.1 hf
      have hclosing : Refits [] [Cell.sign ')'] := .sign (.inr (.inl rfl)) (.refl nofun rfl)
      have hall := ((ih hleft).append (hclosing.append (Token.refits_cells hrest))).sign (.inl rfl)
      rw [Token.stretch_append shorter.tokens_ne_nil]
      exact hall

/-- The part of a level block before its last operator is level, and so is the rest. -/
theorem level_of_join {left : JoinTree} {words operand condition : List Token} {j on : Token}
    (h : WellFormed depth (join left words j operand on condition))
    (hl : Level depth (join left words j operand on condition).tokens) :
    Level depth left.tokens ∧ Level depth (words ++ j :: (operand ++ on :: condition)) := by
  cases h with
  | join shorter operator joins =>
    have hkeywords : ∀ w ∈ words, ∃ k, w.isKeyword k = true := by
      obtain ⟨ks, -, hkinds⟩ := operator.known
      intro w hw
      obtain ⟨k, -, hk⟩ := List.mem_map.1 (hkinds ▸ List.mem_map_of_mem hw : w.kind ∈ ks.map Kind.keyword)
      exact ⟨k, by simp [Token.isKeyword, Kind.isKeyword, ← hk]⟩
    rw [tokens_join] at hl
    rw [← List.append_assoc] at hl
    obtain ⟨hleft, hright⟩ := Token.not_paren_of_isKeywordAt joins
    have hfront := (hl.split (Token.depth_of_isKeywordAt joins) hleft hright).1
    rw [List.append_assoc] at hl
    suffices hlevel : Level depth left.tokens from ⟨hlevel, hl.of_append hlevel⟩
    clear operator hl
    induction words using List.reverseRecOn with
    | nil => rwa [List.append_nil] at hfront
    | append_singleton words w ih =>
      obtain ⟨hwords, hw⟩ := List.forall_mem_append.1 hkeywords
      obtain ⟨k, hk⟩ := hw w (List.mem_singleton_self w)
      rw [← List.append_assoc] at hfront
      exact ih hwords (hfront.of_concat (Token.not_paren_of_isKeyword hk).1 (Token.not_paren_of_isKeyword hk).2)

theorem balanced_nestedCells (h : b.WellFormed depth) (hl : Level depth b.tokens) :
    Balanced (Cell.kinds b.nestedCells) := by
  induction h with
  | @table ts part =>
    rw [nestedCells, Token.kinds_stretch]
    exact hl.balanced
  | @join left words operand condition j on shorter operator joins named starts parts holds ih =>
    obtain ⟨hleft, hrest⟩ := level_of_join (.join shorter operator joins named starts parts holds) hl
    rw [nestedCells]
    split
    · rw [Token.kinds_stretch]
      exact hl.balanced
    · have hbehind := hrest.balanced
      rw [← Token.kinds_cells] at hbehind
      have hgroup := Balanced.group (ih hleft) hbehind
      rw [← Cell.kinds_token, ← Cell.kinds_append]  at hgroup
      exact hgroup

open JoinChain (selectCells)

variable {isWrapped : Bool} {name : SqlText}

/-- The cells of a block that is rewritten, without the name that it gets as a table. -/
def frontCells (isWrapped : Bool) (b : JoinTree) : List Cell :=
  if isWrapped ∧ 0 < b.joins then selectCells ++ b.nestedCells else b.nestedCells

/-- The end of a block that becomes a table of this name. -/
def endCells (isWrapped : Bool) (b : JoinTree) (name : SqlText) : List Cell :=
  if isWrapped ∧ 0 < b.joins then Cell.namedCells name else []

/-- The kinds of the tokens of a block that is rewritten. -/
def rewrittenKinds (isWrapped : Bool) (index : Nat) (b : JoinTree) : List Kind :=
  Cell.kinds (b.frontCells isWrapped ++ b.endCells isWrapped (JoinChain.aliasName index))

theorem spell_frontCells (isWrapped : Bool) (index : Nat) (b : JoinTree) :
    Cell.spell (b.frontCells isWrapped ++ b.endCells isWrapped (JoinChain.aliasName index))
      = b.rewritten isWrapped index := by
  rw [frontCells, endCells, rewritten, Cell.spell_append]
  split
  · rw [Cell.spell_append, spell_nestedCells]
    simp [selectCells, Cell.namedCells, JoinChain.aliasName]
  · rw [spell_nestedCells, Cell.spell_nil, List.append_nil]

theorem exists_token_frontCells (isWrapped : Bool) (h : b.WellFormed depth) :
    ∃ k t cs, b.frontCells isWrapped = .token k t :: cs := by
  rw [frontCells]
  split
  · exact ⟨_, _, _, rfl⟩
  · exact exists_token_nestedCells h

theorem getLast?_nestedCells (h : b.WellFormed depth) : b.nestedCells.getLast?.any Cell.isGap = false := by
  cases h with
  | table part => exact Token.isGap_getLast?_stretch _
  | @join left words operand condition j on =>
    rw [nestedCells]
    split
    · exact Token.isGap_getLast?_stretch _
    · rw [← List.cons_append, List.getLast?_append, List.getLast?_cons, Token.getLast?_cells]
      cases hlast : (words ++ j :: (operand ++ on :: condition)).getLast? with
      | none => simp at hlast
      | some t => rfl

theorem getLast?_frontCells (h : b.WellFormed depth) : (b.frontCells isWrapped).getLast?.any Cell.isGap = false := by
  have hnested := getLast?_nestedCells h
  rw [frontCells]
  split
  · rw [List.getLast?_append]
    obtain ⟨k, t, cs, hcells⟩ := exists_token_nestedCells h
    cases hlast : b.nestedCells.getLast? with
    | none => simp [hcells] at hlast
    | some c =>
      rw [hlast] at hnested
      exact hnested
  · exact hnested

/-- A block that is rewritten takes the place of the block. -/
theorem refits_frontCells (isWrapped : Bool) (h : b.WellFormed depth) (hf : ∀ t ∈ b.tokens, t.kind.isFault = false) :
    Refits (stretch b.tokens) (b.frontCells isWrapped) := by
  rw [frontCells]
  split
  · exact (refits_nestedCells h hf).select (exists_token_nestedCells h)
  · exact refits_nestedCells h hf

theorem balanced_frontCells (h : b.WellFormed depth) (hl : Level depth b.tokens) :
    Balanced (Cell.kinds (b.frontCells isWrapped ++ b.endCells isWrapped name)) := by
  rw [frontCells, endCells]
  split
  · have hinside := Balanced.word "select".toList (.plain (k := .symbol .star) nofun nofun
      (.word "from".toList (balanced_nestedCells h hl)))
    have hgroup := hinside.group (.word "as".toList (.word name .nil))
    rw [List.append_assoc, Cell.kinds_append, Cell.kinds_append]
    exact hgroup
  · rw [List.append_nil]
    exact balanced_nestedCells h hl

theorem isFault_nestedCells (hf : ∀ t ∈ b.tokens, t.kind.isFault = false) :
    ∀ k ∈ Cell.kinds b.nestedCells, k.isFault = false := by
  induction b with
  | table ts =>
    rw [nestedCells, Token.kinds_stretch, List.forall_mem_map]
    exact hf
  | join left words j operand on condition ih =>
    rw [nestedCells]
    split
    · rw [Token.kinds_stretch, List.forall_mem_map]
      exact hf
    · rw [tokens_join] at hf
      obtain ⟨hleft, hrest⟩ := List.forall_mem_append.1 hf
      have hbehind : ∀ k ∈ Cell.kinds (cells (words ++ j :: (operand ++ on :: condition))), k.isFault = false := by
        rw [Token.kinds_cells, List.forall_mem_map]
        exact hrest
      show ∀ k ∈ Cell.kinds ([Cell.sign '('] ++ (_ ++ ([Cell.sign ')'] ++ _))), _
      rw [Cell.kinds_append, Cell.kinds_append, Cell.kinds_append]
      simp only [List.forall_mem_append]
      refine ⟨?_, ih hleft, ?_, hbehind⟩
      · exact List.forall_mem_singleton.2 rfl
      · exact List.forall_mem_singleton.2 rfl

theorem isFault_frontCells (hf : ∀ t ∈ b.tokens, t.kind.isFault = false) :
    ∀ k ∈ Cell.kinds (b.frontCells isWrapped ++ b.endCells isWrapped name), k.isFault = false := by
  have hnested := isFault_nestedCells hf
  rw [frontCells, endCells]
  split
  · rw [List.append_assoc, Cell.kinds_append, Cell.kinds_append]
    simp only [List.forall_mem_append]
    refine ⟨?_, hnested, ?_⟩
    · show ∀ k ∈ [Kind.symbol .leftParen, Lexeme.wordKind "select".toList, .symbol .star,
        Lexeme.wordKind "from".toList], _
      simp only [List.forall_mem_cons]
      exact ⟨rfl, Lexeme.isFault_wordKind _, rfl, Lexeme.isFault_wordKind _, nofun⟩
    · show ∀ k ∈ [Kind.symbol .rightParen, Lexeme.wordKind "as".toList, Lexeme.wordKind name], _
      simp only [List.forall_mem_cons]
      exact ⟨rfl, Lexeme.isFault_wordKind _, Lexeme.isFault_wordKind _, nofun⟩
  · rwa [List.append_nil]

end JoinTree

/-! ### Cells of clauses -/

namespace FromClause

open Cell (Refits Sound)
open Edit (insertedAt)
open JoinTree (frontCells endCells rewritten)
open Text (weave)

variable {c : FromClause} {isWrapped : Bool} {index depth : Nat} {comma : Token}

/-- The name of a table before a comma. -/
theorem refits_endCells (isWrapped : Bool) (index : Nat) (b : JoinTree) (hcomma : comma.isSymbol .comma = true) :
    Refits (cells [comma]) (b.endCells isWrapped (JoinChain.aliasName index) ++ cells [comma]) := by
  have hk := Kind.isSymbol_iff.1 hcomma
  have hrefl : Refits (cells [comma]) (cells [comma]) := by
    refine Token.refits_cells fun t ht => ?_
    rw [List.mem_singleton.1 ht, hk]
    rfl
  rw [endCells]
  split
  · intro Z Z' hD hZ' hstands
    have hs := (hrefl hD hZ' hstands).1
    have hhead : (Cell.spell (cells [comma] ++ Z')).head?.any Text.continuesWord = false := by
      have hcells : cells [comma] ++ Z' = Cell.ofGap comma.gap ++ comma.cell :: Z' := by simp
      rw [hcells] at hs ⊢
      by_cases hgap : comma.gap = []
      · rw [Cell.ofGap, if_pos hgap, List.nil_append] at hs ⊢
        have hfit := (Cell.sound_cons_iff.1 hs).1
        rw [Token.cell, hk] at hfit
        rw [Cell.spell_cons, Token.text_cell, (Cell.text_of_symbol hfit).2.2.1 rfl]
        exact (by decide : Text.continuesWord ',' = false)
      · rw [Cell.ofGap, if_neg hgap] at hs ⊢
        exact (Cell.sound_cons_iff.1 hs).1.head_gap _
    exact ⟨Cell.sound_namedCells (JoinChain.isWord_aliasName index) rfl hs hhead,
      .of_stops (Cell.stops_sign (.inr (.inl rfl)) _)⟩
  · exact hrefl

/-- The kinds of the tokens of a clause that is rewritten, its blocks numbered from `index` on. -/
def kindsFrom (isWrapped : Bool) (index : Nat) : JoinTree → List (Token × JoinTree) → List Kind
  | b, [] => b.rewrittenKinds isWrapped index
  | b, (comma, b') :: others =>
    b.rewrittenKinds isWrapped index ++ comma.kind :: kindsFrom isWrapped (index + 1) b' others

/-- The cells of a clause that is rewritten, up to the name that its last block may get as a table. -/
theorem WellFormed.exists_cells (isWrapped : Bool) (index : Nat) (h : c.WellFormed depth) (hl : Level depth c.tokens)
    (hf : ∀ t ∈ c.tokens, t.kind.isFault = false) :
    ∃ N E i, (E = (fun _ => []) ∨ E = Cell.namedCells) ∧
      textFrom (rewritten isWrapped) index c.first c.others
        = lead c.tokens ++ Cell.spell (N ++ E (JoinChain.aliasName i)) ∧
      Refits (stretch c.tokens) N ∧ (∃ k t cs, N = .token k t :: cs) ∧ N.getLast?.any Cell.isGap = false ∧
      Cell.kinds (N ++ E (JoinChain.aliasName i)) = kindsFrom isWrapped index c.first c.others ∧
      ∀ name, Balanced (Cell.kinds (N ++ E name)) ∧ ∀ k ∈ Cell.kinds (N ++ E name), k.isFault = false := by
  obtain ⟨b, others⟩ := c
  induction others generalizing b index with
  | nil =>
    rw [tokens_single] at hl hf ⊢
    have hb := h.first.1
    refine ⟨b.frontCells isWrapped, b.endCells isWrapped, index, ?_, ?_, JoinTree.refits_frontCells isWrapped hb hf,
      JoinTree.exists_token_frontCells isWrapped hb, JoinTree.getLast?_frontCells hb, rfl,
      fun name => ⟨JoinTree.balanced_frontCells hb hl, JoinTree.isFault_frontCells hf⟩⟩
    · by_cases hend : isWrapped ∧ 0 < b.joins
      · exact .inr (funext fun name => if_pos hend)
      · exact .inl (funext fun name => if_neg hend)
    · rw [textFrom, JoinTree.spell_frontCells]
  | cons p others ih =>
    obtain ⟨comma, b'⟩ := p
    have hrest : (⟨b', others⟩ : FromClause).WellFormed depth :=
      ⟨(h.others _ List.mem_cons_self).2, fun p hp => h.others p (List.mem_cons_of_mem _ hp)⟩
    have hcomma := (h.others _ List.mem_cons_self).1
    have hb := h.first.1
    rw [tokens_cons] at hl hf ⊢
    obtain ⟨left, right⟩ := Token.not_paren_of_isSymbolAt_comma hcomma
    obtain ⟨hlb, hlrest⟩ := hl.split (Token.depth_of_isSymbolAt hcomma) left right
    obtain ⟨hfb, hfrest⟩ := List.forall_mem_append.1 hf
    obtain ⟨hfcomma, hfrest⟩ := List.forall_mem_cons.1 hfrest
    obtain ⟨N, E, i, hend, htext, hrefits, htoken, hlast, hall, hkinds⟩ := ih (index + 1) b' hrest hlrest hfrest
    have hb' : b'.tokens ≠ [] := hrest.first.1.tokens_ne_nil
    have hne : (⟨b', others⟩ : FromClause).tokens ≠ [] := List.append_ne_nil_of_left_ne_nil hb' _
    have hlead : lead (⟨b', others⟩ : FromClause).tokens = lead b'.tokens := by
      obtain ⟨t, ts, ht⟩ := List.exists_cons_of_ne_nil hb'
      rw [tokens, ht]
      rfl
    have hgap := hrefits.ofGap (g := lead b'.tokens) (by
      obtain ⟨t, ts, ht⟩ := List.exists_cons_of_ne_nil hne
      rw [ht]
      exact List.cons_ne_nil _ _) htoken
    have hblock := (JoinTree.refits_frontCells isWrapped hb hfb).append
      ((refits_endCells isWrapped index b (Token.isSymbol_of_isSymbolAt hcomma)).append hgap)
    have hcells : cells (comma :: (⟨b', others⟩ : FromClause).tokens)
        = cells [comma] ++ (Cell.ofGap (lead b'.tokens) ++ stretch (⟨b', others⟩ : FromClause).tokens) := by
      rw [← hlead, ← Token.cells_eq hne, ← Token.cells_append]
      rfl
    have hsplit : ∀ name, Cell.kinds (b.frontCells isWrapped ++ ((b.endCells isWrapped (JoinChain.aliasName index)
        ++ cells [comma]) ++ (Cell.ofGap (lead b'.tokens) ++ N)) ++ E name)
        = Cell.kinds (b.frontCells isWrapped ++ b.endCells isWrapped (JoinChain.aliasName index))
          ++ comma.kind :: Cell.kinds (N ++ E name) := by
      intro name
      simp only [Cell.kinds_append, Cell.kinds_ofGap, Token.kinds_cells, List.map_cons, List.map_nil, List.append_assoc,
        List.nil_append, List.cons_append]
    refine ⟨b.frontCells isWrapped ++ ((b.endCells isWrapped (JoinChain.aliasName index) ++ cells [comma])
      ++ (Cell.ofGap (lead b'.tokens) ++ N)), E, i, hend, ?_, ?_, ?_, ?_, ?_, fun name => ?_⟩
    · have hfront : lead (b.tokens ++ comma :: (⟨b', others⟩ : FromClause).tokens) = lead b.tokens := by
        obtain ⟨t, ts, ht⟩ := List.exists_cons_of_ne_nil hb.tokens_ne_nil
        rw [show b.tokens = t :: ts from ht]
        rfl
      rw [textFrom, htext, hfront, ← JoinTree.spell_frontCells, hlead]
      simp
    · rw [Token.stretch_append hb.tokens_ne_nil, hcells]
      exact hblock
    · obtain ⟨k, t, cs, hfront⟩ := JoinTree.exists_token_frontCells isWrapped hb
      rw [hfront]
      exact ⟨k, t, _, rfl⟩
    · obtain ⟨k, t, cs, rfl⟩ := htoken
      rw [List.getLast?_append, List.getLast?_append, List.getLast?_append]
      cases hN : (Cell.token k t :: cs).getLast? with
      | none => simp at hN
      | some c =>
        rw [hN] at hlast
        exact hlast
    · rw [hsplit, hall]
      rfl
    · obtain ⟨hbalanced, hfault⟩ := hkinds name
      rw [hsplit]
      refine ⟨(JoinTree.balanced_frontCells hb hlb).append (.plain ?_ ?_ hbalanced), ?_⟩
      · intro hk
        simp [Token.isSymbol, Kind.isSymbol, hk] at left
      · intro hk
        simp [Token.isSymbol, Kind.isSymbol, hk] at right
      · rw [List.forall_mem_append, List.forall_mem_cons]
        exact ⟨JoinTree.isFault_frontCells hfb, hfcomma, hfault⟩

/-- What the edits of a clause make of its text, from the first token to the last. -/
theorem WellFormed.weave_edits {o : Nat} (h : c.WellFormed depth) (hp : Placed o c.tokens)
    (htexts : ∀ t ∈ c.tokens, t.text ≠ []) :
    lead c.tokens ++ Token.edited c.edits c.tokens = textFrom (rewritten c.isWrapped) 0 c.first c.others := by
  have hne : c.tokens ≠ [] := List.append_ne_nil_of_left_ne_nil h.first.1.tokens_ne_nil _
  obtain ⟨hstart, hstop⟩ := hp.extent hne 0 0
  have hquiet : weave (insertedAt c.edits) o (lead c.tokens) = lead c.tokens := by
    refine Text.weave_of_quiet fun p hle hlt => ?_
    exact insertedAt_outside hp (fun e he => h.exists_of_mem_edits he) (.inl (by omega))
  have hall : weave (insertedAt c.edits) o (written c.tokens)
      ++ insertedAt c.edits (o + Text.byteSize (written c.tokens)) = _ := h.weave_editsFrom hp htexts fun p _ _ => rfl
  rw [← hall, Token.written_eq, Text.weave_append, hquiet, ← hstart, Text.byteSize_append, ← Nat.add_assoc, ← hstart,
    ← hstop, List.append_assoc]
  rfl

end FromClause

/-! ### The end of a clause -/

namespace Query

open Cell (Sound)
open Text (StandsIn)

variable {q : Query} {tail : List Cell} {as bs ts : List Token} {depth stop : Nat} {es : List Edit}

/-- What goes on with a word behind a clause is a keyword directly behind it. -/
theorem IsRead.exists_keyword (h : q.IsRead tail) (hq : q.tokens = as ++ bs) (hends : AtEnd bs)
    (hword : (Cell.spell (Token.cells bs ++ tail)).head?.any Text.continuesWord = true) :
    ∃ w bs' k, bs = w :: bs' ∧ w.gap = [] ∧ w.isKeyword k = true := by
  have hsound := h.sound
  rw [hq, Token.cells_append, List.append_assoc] at hsound
  have hsound := hsound.of_append
  cases bs with
  | nil =>
    rcases h.tail with rfl | ⟨g, rfl⟩
    · cases hword
    · have hhead := (Cell.sound_cons_iff.1 hsound).1.head_gap []
      rw [show Cell.spell (Token.cells [] ++ [Cell.gap g]) = g ++ [] from rfl, hhead] at hword
      cases hword
  | cons w bs =>
    refine ⟨w, bs, ?_⟩
    have hcells : Token.cells (w :: bs) ++ tail = Cell.ofGap w.gap ++ w.cell :: (Token.cells bs ++ tail) := by simp
    rw [hcells] at hsound hword
    by_cases hgap : w.gap = []
    · rw [Cell.ofGap, if_pos hgap, List.nil_append] at hsound hword
      have hfit := (Cell.sound_cons_iff.1 hsound).1
      have hsymbol : ∀ {s : Symbol} {d : Char}, w.isSymbol s = true → (w.kind = .symbol s → w.text = [d]) →
          Text.continuesWord d = false → False := by
        intro s d hs htext hd
        rw [Cell.spell_cons, Token.text_cell, htext (Kind.isSymbol_iff.1 hs)] at hword
        have hcontinues : Text.continuesWord d = true := hword
        rw [hd] at hcontinues
        cases hcontinues
      have htext : ∀ {s : Symbol}, w.kind = .symbol s → _ := fun {s} hk =>
        Cell.text_of_symbol (s := s) (t := w.text) (by rw [Token.cell, hk] at hfit; exact hfit)
      rcases hends w rfl with hright | hsemi | ⟨k, -, hk⟩
      · exact (hsymbol hright (fun hk => (htext hk).2.1 rfl) (by decide)).elim
      · exact (hsymbol hsemi (fun hk => (htext hk).2.2.2 rfl) (by decide)).elim
      · exact ⟨k, rfl, hgap, hk⟩
    · rw [Cell.ofGap, if_neg hgap] at hsound hword
      have hhead := (Cell.sound_cons_iff.1 hsound).1.head_gap (Cell.spell (w.cell :: (Token.cells bs ++ tail)))
      rw [show Cell.spell ([Cell.gap w.gap] ++ w.cell :: (Token.cells bs ++ tail))
        = w.gap ++ Cell.spell (w.cell :: (Token.cells bs ++ tail)) from rfl, hhead] at hword
      cases hword

/-- The cells of a clause that is nested, and of what stands behind it: the last name takes in a word that it runs
into. -/
theorem IsRead.exists_nested_cells (h : q.IsRead tail) (hq : q.tokens = as ++ (ts ++ bs)) (hl : Level depth ts)
    (hends : AtEnd bs) (hes : JoinChain.clauseEdits depth stop ts = .ok es) :
    ∃ N bs', (bs' = bs ∨ ∃ w k, bs = w :: bs' ∧ w.isKeyword k = true) ∧
      Cell.spell (N ++ (Token.cells bs' ++ tail))
        = Token.edited es ts ++ Cell.spell (Token.cells bs ++ tail) ∧
      Sound (N ++ (Token.cells bs' ++ tail)) ∧
      StandsIn (Cell.spell (stretch ts ++ (Token.cells bs ++ tail))) (Cell.spell (N ++ (Token.cells bs' ++ tail))) ∧
      (∃ k t cs, N = .token k t :: cs) ∧ N.getLast?.any Cell.isGap = false ∧ Balanced (Cell.kinds N) ∧
      ∀ k ∈ Cell.kinds N, k.isFault = false := by
  obtain ⟨c, hc, rfl, rfl⟩ := JoinChain.clauseEdits_eq_ok_iff.1 hes
  have hplaced := h.placed
  rw [hq, Token.placed_append, Token.placed_append] at hplaced
  have hplaced := hplaced.2.1
  have htexts : ∀ t ∈ c.tokens, t.text ≠ [] := by
    intro t ht
    refine h.text_ne_nil t ?_
    rw [hq]
    simp [ht]
  have hplain : ∀ t ∈ c.tokens, t.kind.isFault = false := by
    intro t ht
    refine h.plain t ?_
    rw [hq]
    simp [ht]
  obtain ⟨N, E, i, hend, htext, hrefits, htoken, hlast, -, hkinds⟩ := hc.exists_cells c.isWrapped 0 hl hplain
  rw [← hc.weave_edits hplaced htexts] at htext
  have htext := List.append_cancel_left htext
  have hne : c.tokens ≠ [] := List.append_ne_nil_of_left_ne_nil hc.first.1.tokens_ne_nil _
  have hsound : Sound (stretch c.tokens ++ (Token.cells bs ++ tail)) := by
    have hall := h.sound
    rw [hq, Token.cells_append, Token.cells_append, Token.cells_eq hne] at hall
    simp only [List.append_assoc] at hall
    exact hall.of_append.of_append
  have hbehind := hsound.of_append
  rcases hend with rfl | rfl
  · obtain ⟨hnew, hstands⟩ := hrefits hsound hbehind (.refl _)
    obtain ⟨hbalanced, hfault⟩ := hkinds []
    rw [List.append_nil] at htext hbalanced hfault
    exact ⟨N, bs, .inl rfl, by rw [htext, Cell.spell_append], hnew, hstands, htoken, hlast, hbalanced, hfault⟩
  · -- Behind the name of a table, whatever it is, nothing changes that does not go on with a word.
    have hnamed : ∀ {name : SqlText} {Z : List Cell}, Cell.IsWord name → name.head?.any Text.isBlank = false →
        Sound Z → (Cell.spell Z).head?.any Text.continuesWord = false →
        Sound (N ++ Cell.namedCells name ++ Z) ∧
          StandsIn (Cell.spell (stretch c.tokens ++ (Token.cells bs ++ tail)))
            (Cell.spell (N ++ Cell.namedCells name ++ Z)) ∧
          (∃ k t cs, N ++ Cell.namedCells name = .token k t :: cs) ∧
          (N ++ Cell.namedCells name).getLast?.any Cell.isGap = false := by
      intro name Z hname hblank hZ hhead
      have hend := Cell.sound_namedCells hname hblank hZ hhead
      obtain ⟨hnew, hstands⟩ := hrefits hsound hend (.of_stops (Cell.stops_sign (.inr (.inl rfl)) _))
      rw [List.append_assoc]
      refine ⟨hnew, hstands, ?_, ?_⟩
      · obtain ⟨k, t, cs, rfl⟩ := htoken
        exact ⟨k, t, _, rfl⟩
      · rw [List.getLast?_append]
        rfl
    have hword := JoinChain.isWord_aliasName i
    by_cases hcontinues : (Cell.spell (Token.cells bs ++ tail)).head?.any Text.continuesWord = true
    · obtain ⟨w, bs', k, rfl, hgap, hk⟩ := h.exists_keyword (by rw [hq, List.append_assoc]) hends hcontinues
      have hkind : w.kind = .keyword k := Kind.isKeyword_iff.1 hk
      have hcells : Token.cells (w :: bs') ++ tail = w.cell :: (Token.cells bs' ++ tail) := by simp [hgap]
      rw [hcells] at hbehind
      obtain ⟨hfit, hrest⟩ := Cell.sound_cons_iff.1 hbehind
      rw [Token.cell, hkind] at hfit
      obtain ⟨hw, -⟩ := Cell.isWord_of_keyword hfit
      obtain ⟨hnew, hstands, hfirst, hend⟩ := hnamed (hword.append hw.2) rfl hrest (hw.ends hfit)
      obtain ⟨hbalanced, hfault⟩ := hkinds (JoinChain.aliasName i ++ w.text)
      refine ⟨_, bs', .inr ⟨w, k, rfl, hk⟩, ?_, hnew, hstands, hfirst, hend, hbalanced, hfault⟩
      rw [htext, hcells]
      simp [Cell.namedCells]
    · obtain ⟨hnew, hstands, hfirst, hend⟩ := hnamed hword rfl hbehind (Bool.eq_false_iff.2 hcontinues)
      obtain ⟨hbalanced, hfault⟩ := hkinds (JoinChain.aliasName i)
      exact ⟨_, bs, .inl rfl, by rw [htext, Cell.spell_append], hnew, hstands, hfirst, hend, hbalanced, hfault⟩

end Query

/-! ### Reading what was nested -/

namespace Cell

variable {N : List Cell} {g : SqlText}

/-- Cells that end with a token are lexemes by themselves, whatever stands behind them. -/
theorem exists_lexemes (hlast : N.getLast?.any isGap = false) (hnil : N = [] → g = []) :
    ∃ ls, (∀ Z, lexemes g (N ++ Z) = ls ++ lexemes [] Z) ∧ ls.map Lexeme.kind = kinds N ∧
      Lexeme.spell ls = g ++ spell N := by
  induction N generalizing g with
  | nil =>
    obtain rfl := hnil rfl
    exact ⟨[], fun Z => rfl, rfl, rfl⟩
  | cons c N ih =>
    have hrest : N ≠ [] → N.getLast?.any isGap = false := by
      intro hne
      rwa [List.getLast?_cons_of_ne_nil hne] at hlast
    cases c with
    | gap g' =>
      have hne : N ≠ [] := by
        rintro rfl
        cases hlast
      obtain ⟨ls, hls, hkinds, hspell⟩ := ih (g := g ++ g') (hrest hne) fun hn => absurd hn hne
      exact ⟨ls, hls, hkinds, by rw [hspell, List.append_assoc]; rfl⟩
    | token k t =>
      have hlast' : N.getLast?.any isGap = false := by
        by_cases hne : N = []
        · rw [hne]
          rfl
        · exact hrest hne
      obtain ⟨ls, hls, hkinds, hspell⟩ := ih (g := []) hlast' fun _ => rfl
      refine ⟨⟨k, g, t⟩ :: ls, fun Z => ?_, ?_, ?_⟩
      · rw [List.cons_append, lexemes, hls]
        rfl
      · rw [List.map_cons, hkinds]
        rfl
      · rw [Lexeme.spell_cons, hspell]
        rfl

theorem Sound.kind_ne_eof {cs : List Cell} (h : Sound cs) : ∀ k ∈ kinds cs, k ≠ .eof := by
  induction h with
  | nil => exact nofun
  | @cons c cs fits _ ih =>
    cases c with
    | gap g => exact ih
    | token k t =>
      have hfit : Lexeme.Fits ⟨k, [], t⟩ (spell cs) := fits
      exact List.forall_mem_cons.2 ⟨hfit.kind_ne_eof, ih⟩

end Cell

namespace Token

variable {ts : List Token} {ls : List Lexeme} {ks : List Kind} {n d e o : Nat}

/-- Lexemes whose parentheses match are the tokens of a level stretch of any depth. -/
theorem exists_level (h : Balanced ks) (hls : ls.map Lexeme.kind = ks) (d o : Nat) :
    ∃ ts, ts.map (·.toLexeme) = ls ∧ Placed o ts ∧ Level d ts := by
  induction h generalizing ls d o with
  | nil =>
    obtain rfl := List.map_eq_nil_iff.1 hls
    exact ⟨[], rfl, trivial, .nil⟩
  | plain left right _ ih =>
    obtain ⟨l, ls, rfl, rfl, hrest⟩ := List.map_eq_cons_iff.1 hls
    obtain ⟨ts, rfl, hplaced, hlevel⟩ := ih hrest d (o + Text.byteSize l.gap + Text.byteSize l.text)
    refine ⟨⟨⟨l, o + Text.byteSize l.gap⟩, d⟩ :: ts, rfl, ⟨rfl, hplaced⟩, .plain ?_ ?_ rfl hlevel.run,
      List.forall_mem_cons.2 ⟨Nat.le_refl _, hlevel.le⟩⟩
    · simpa [isSymbol, Kind.isSymbol] using left
    · simpa [isSymbol, Kind.isSymbol] using right
  | group _ _ ihInside ihBehind =>
    obtain ⟨opening, ls, rfl, hopening, hrest⟩ := List.map_eq_cons_iff.1 hls
    obtain ⟨inside, ls, rfl, hinside, hrest⟩ := List.map_eq_append_iff.1 hrest
    obtain ⟨closing, behind, rfl, hclosing, hbehind⟩ := List.map_eq_cons_iff.1 hrest
    obtain ⟨ts, rfl, hplaced, hlevel⟩ := ihInside hinside (d + 1)
      (o + Text.byteSize opening.gap + Text.byteSize opening.text)
    let place := o + Text.byteSize opening.gap + Text.byteSize opening.text + Text.byteSize (written ts)
    obtain ⟨us, rfl, hplaced', hlevel'⟩ := ihBehind hbehind d
      (place + Text.byteSize closing.gap + Text.byteSize closing.text)
    have hbehind : Placed place (⟨⟨closing, place + Text.byteSize closing.gap⟩, d⟩ :: us) := ⟨rfl, hplaced'⟩
    refine ⟨⟨⟨opening, o + Text.byteSize opening.gap⟩, d⟩ :: (ts ++ ⟨⟨closing, place + Text.byteSize closing.gap⟩, d⟩
      :: us), ?_, ⟨rfl, placed_append_iff.2 ⟨hplaced, ?_⟩⟩,
      .opening ?_ rfl (hlevel.run.append (.closing ?_ rfl hlevel'.run)), ?_⟩
    · simp
    · exact hbehind
    · simp [isSymbol, Kind.isSymbol, hopening]
    · simp [isSymbol, Kind.isSymbol, hclosing]
    · refine List.forall_mem_cons.2 ⟨Nat.le_refl _, List.forall_mem_append.2 ⟨fun t ht => ?_,
        List.forall_mem_cons.2 ⟨Nat.le_refl _, hlevel'.le⟩⟩⟩
      exact Nat.le_of_succ_le (hlevel.le t ht)

/-- A token with so many more places before it. -/
def shifted (n : Nat) (t : Token) : Token :=
  { t with start := t.start + n }

theorem Placed.shifted (h : Placed o ts) : Placed (o + n) (ts.map (shifted n)) := by
  induction ts generalizing o with
  | nil => trivial
  | cons t ts ih =>
    obtain ⟨hstart, hrest⟩ := h
    have hstop : (t.shifted n).stop = t.stop + n := by
      show t.start + n + Text.byteSize t.text = t.start + Text.byteSize t.text + n
      omega
    refine ⟨?_, ?_⟩
    · show t.start + n = o + n + Text.byteSize t.gap
      omega
    · rw [hstop]
      exact ih hrest

theorem Run.shifted (h : Run d ts e) : Run d (ts.map (shifted n)) e := by
  induction h with
  | nil => exact .nil
  | opening paren depth _ ih => exact .opening paren depth ih
  | closing paren depth _ ih => exact .closing paren depth ih
  | plain left right depth _ ih => exact .plain left right depth ih

/-- A run over a level stretch starts where this does. -/
theorem Level.start_eq {depth : Nat} (h : Level depth ts) (hrun : Run d ts e) (hts : ts ≠ []) : d = depth := by
  obtain ⟨t, ts, rfl⟩ := List.exists_cons_of_ne_nil hts
  have hdepth := h.depth_first
  have hle := h.le t List.mem_cons_self
  cases hrun with
  | opening _ ht => omega
  | plain _ _ ht => omega
  | closing paren ht =>
    cases h.run with
    | opening paren' =>
      rw [isSymbol_eq_false_of_isSymbol paren (by decide)] at paren'
      cases paren'
    | closing _ ht' => omega
    | plain _ right =>
      rw [paren] at right
      cases right

end Token

theorem Text.byteSize_le_weave (ins : Nat → SqlText) (place : Nat) (t : SqlText) :
    byteSize t ≤ byteSize (weave ins place t) := by
  induction t generalizing place with
  | nil => exact Nat.le_refl _
  | cons c t ih =>
    have := ih (place + c.utf8Size)
    rw [weave, byteSize_append, byteSize_cons, byteSize_cons]
    omega

theorem Token.byteSize_le_edited (es : List Edit) (ts : List Token) :
    Text.byteSize (spell ts) ≤ Text.byteSize (edited es ts) := by
  have := Text.byteSize_le_weave (Edit.insertedAt es) (startOr 0 ts) (spell ts)
  rw [edited, Text.byteSize_append]
  omega

namespace Query

open Text (byteSize)

variable {q : Query} {tail : List Cell} {as bs ts : List Token} {depth stop : Nat} {es : List Edit}

/-- **Texts with a nested clause.**  Behind the clause the tokens are those that were there, further on in the text, but
for a keyword that the last name runs into.  The tokens of the clause stay inside its depth. -/
theorem IsRead.ofText_nested (h : q.IsRead tail) (hq : q.tokens = as ++ (ts ++ bs)) (hne : ts ≠ [])
    (hl : Level depth ts) (hends : AtEnd bs) (hes : JoinChain.clauseEdits depth stop ts = .ok es) :
    ∃ ts' bs' n, (bs' = bs ∨ ∃ w k, bs = w :: bs' ∧ w.isKeyword k = true) ∧
      byteSize (Token.edited es ts) = byteSize (Token.spell ts) + n ∧ (∀ t ∈ ts', depth ≤ t.depth) ∧ ∃ text,
      text = written as ++ (lead ts ++ (Token.edited es ts ++ Cell.spell (Token.cells bs ++ tail))) ∧
      ofText text = .ok ⟨text, as ++ (ts' ++ bs'.map (Token.shifted n))⟩ := by
  obtain ⟨N, bs', hbs', hspell, hsound, hstands, htoken, hlast, hbalanced, hfault⟩ :=
    h.exists_nested_cells hq hl hends hes
  obtain ⟨n, hn⟩ := Nat.exists_eq_add_of_le (Token.byteSize_le_edited es ts)
  -- The cells of the new text.
  have hproper := h.proper
  rw [hq] at hproper
  obtain ⟨hproperas, hproperts, hproperbs⟩ : (∀ t ∈ as, _) ∧ (∀ t ∈ ts, _) ∧ ∀ t ∈ bs, _ := by
    simpa only [List.forall_mem_append] using hproper
  have hcells : Cell.Sound (Token.cells as ++ (Cell.ofGap (lead ts) ++ (N ++ (Token.cells bs' ++ tail)))) := by
    have hall := h.sound
    rw [hq, Token.cells_append, Token.cells_append, Token.cells_eq hne] at hall
    simp only [List.append_assoc] at hall
    have hgap : Cell.Sound (Cell.ofGap (lead ts) ++ (N ++ (Token.cells bs' ++ tail))) := by
      refine hall.of_append.ofGap_refit ?_ hsound ?_
      · obtain ⟨t, ts, rfl⟩ := List.exists_cons_of_ne_nil hne
        exact List.cons_ne_nil _ _
      · obtain ⟨k, t, cs, rfl⟩ := htoken
        exact ⟨k, t, _, rfl⟩
    refine (Token.refits_cells (fun t ht => (hproperas t ht).1) hall hgap ?_).1
    rw [Cell.spell_append (Cell.ofGap _), Cell.spell_append (Cell.ofGap _)]
    exact hstands.append_left _
  have htext : Cell.spell (Token.cells as ++ (Cell.ofGap (lead ts) ++ (N ++ (Token.cells bs' ++ tail))))
      = written as ++ (lead ts ++ (Token.edited es ts ++ Cell.spell (Token.cells bs ++ tail))) := by
    rw [Cell.spell_append, Cell.spell_append, Cell.spell_ofGap, hspell, Token.spell_cells]
    rfl
  obtain ⟨ls, hls, hkinds, hspellN⟩ := Cell.exists_lexemes (g := lead ts) hlast (by
    rintro rfl
    obtain ⟨k, t, cs, h⟩ := htoken
    cases h)
  have hlex : lex (Cell.spell (Token.cells as ++ (Cell.ofGap (lead ts) ++ (N ++ (Token.cells bs' ++ tail)))))
      = as.map (·.toLexeme) ++ (ls ++ (bs'.map (·.toLexeme) ++ Cell.lexemes [] tail)) := by
    rw [hcells.lex_spell, lexemes_cells, Cell.lexemes_ofGap_append, List.nil_append, hls, lexemes_cells]
  -- The tokens of the new text.
  have hrun := Token.nested_iff_run.1 h.nested
  rw [hq] at hrun
  obtain ⟨d, hrunas, hrun⟩ := hrun.of_append
  obtain ⟨e, hrunts, hrunbs⟩ := hrun.of_append
  rw [hl.start_eq hrunts hne] at hrunas hrunts
  rw [hrunts.unique hl.run] at hrunbs
  have hplaced := h.placed
  rw [hq, Token.placed_append_iff, Token.placed_append_iff] at hplaced
  obtain ⟨hplacedas, -, hplacedbs⟩ := hplaced
  obtain ⟨ts', hts', hplacedts, hlevel⟩ := Token.exists_level hbalanced hkinds depth (0 + byteSize (written as))
  have hproperts' : ∀ t ∈ ts', t.kind.isFault = false ∧ t.kind ≠ .eof := by
    have hmem : ∀ t ∈ ts', t.kind ∈ Cell.kinds N := by
      intro t ht
      rw [← hkinds, ← hts', List.map_map]
      exact List.mem_map_of_mem ht
    have hend := hsound.kind_ne_eof
    rw [Cell.kinds_append] at hend
    exact fun t ht => ⟨hfault _ (hmem t ht), hend _ (List.mem_append_left _ (hmem t ht))⟩
  -- What stands behind the clause.
  have hsizes := congrArg byteSize hspell
  rw [Cell.spell_append, Cell.spell_append, Cell.spell_append, Text.byteSize_append, Text.byteSize_append,
    Text.byteSize_append, Text.byteSize_append, hn] at hsizes
  have hwritten : byteSize (written ts') = byteSize (lead ts) + byteSize (Cell.spell N) := by
    rw [Token.written_eq_spell, hts', hspellN, Text.byteSize_append]
  rw [Token.written_eq ts, Text.byteSize_append] at hplacedbs
  obtain ⟨hrunbs', hplacedbs', hproperbs'⟩ : Run depth bs' 0 ∧
      Placed (0 + byteSize (written as) + byteSize (written ts')) (bs'.map (Token.shifted n)) ∧
      ∀ t ∈ bs', t.kind.isFault = false ∧ t.kind ≠ .eof := by
    rcases hbs' with rfl | ⟨w, k, rfl, hk⟩
    · refine ⟨hrunbs, ?_, hproperbs⟩
      have hshifted := hplacedbs.shifted (n := n)
      have hplace : 0 + byteSize (written as) + (byteSize (lead ts) + byteSize (Token.spell ts)) + n
          = 0 + byteSize (written as) + byteSize (written ts') := by omega
      rwa [hplace] at hshifted
    · refine ⟨(hrunbs.of_cons (Token.not_paren_of_isKeyword hk).1 (Token.not_paren_of_isKeyword hk).2).2, ?_,
        (List.forall_mem_cons.1 hproperbs).2⟩
      have hshifted := hplacedbs.2.shifted (n := n)
      have hcell : byteSize (Cell.spell (Token.cells (w :: bs')))
          = byteSize w.gap + byteSize w.text + byteSize (Cell.spell (Token.cells bs')) := by
        rw [Token.cells_cons, Cell.spell_append, Cell.spell_ofGap, Cell.spell_cons, Token.text_cell,
          Text.byteSize_append, Text.byteSize_append, Nat.add_assoc]
      have hstop : w.stop = w.start + byteSize w.text := rfl
      have hstart := hplacedbs.1
      have hplace : w.stop + n = 0 + byteSize (written as) + byteSize (written ts') := by omega
      rwa [hplace] at hshifted
  refine ⟨ts', bs', n, hbs', hn, hlevel.le, _, rfl, ?_⟩
  rw [← htext]
  refine ofText_eq_ok_iff.2 ⟨rfl, ?_⟩
  have hshiftedLexemes : bs'.map (·.toLexeme) = (bs'.map (Token.shifted n)).map (·.toLexeme) := by
    rw [List.map_map]
    rfl
  have hproperbs'' : ∀ t ∈ bs'.map (Token.shifted n), t.kind.isFault = false ∧ t.kind ≠ .eof := by
    rw [List.forall_mem_map]
    exact hproperbs'
  have heof : ∀ o, nest 0 (Lexeme.placedFrom o (Cell.lexemes [] tail)) = .ok [] := by
    intro o
    rcases h.tail with rfl | ⟨g, rfl⟩
    · rfl
    · rfl
  rw [tokenize, hlex, nest_append hrunas hplacedas hproperas, ← hts', nest_append hlevel.run hplacedts hproperts',
    hshiftedLexemes, nest_append hrunbs'.shifted hplacedbs' hproperbs'', heof]
  show Except.ok (as ++ (ts' ++ (bs'.map (Token.shifted n) ++ []))) = _
  rw [List.append_nil]

end Query

end JetAdapter
