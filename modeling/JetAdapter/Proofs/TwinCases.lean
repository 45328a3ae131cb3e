import JetAdapter.Proofs.Neat
import JetAdapter.Proofs.Progress

/-!
# Twin conditional expressions

The `CASE` expressions of twins have the same branches, and the nests of calls in their place are neat.
-/

namespace JetAdapter.Conditional

open Cell (Neat NeatTwins)
open Token (stretch row)

variable {free : Bool} {l : Layout} {tail tail' : List Cell} {q q' : Query} {s s' : SqlText} {operand ts : List Token}
  {b : Branch} {bs : List Branch} {depth : Nat}

/-! ### Branches -/

/-- A branch with a new layout. -/
def Branch.relaid (l : Layout) (b : Branch) : Branch :=
  ⟨b.condition.map (Token.relaid l), b.result.map (Token.relaid l)⟩

theorem branches_relaid (depth : Nat) (ts : List Token) :
    branches depth (ts.map (Token.relaid l)) = (branches depth ts).map (List.map (Branch.relaid l)) := by
  have hthen := Token.splitFirst_relaid (l := l) (p := Token.isKeywordAt depth .THEN) (fun _ => rfl)
  have hwhen := Token.splitFirst_relaid (l := l) (p := Token.isKeywordAt depth .WHEN) (fun _ => rfl)
  fun_induction branches depth ts with
  | case1 ts h =>
    rw [branches.eq_def, hthen, h]
    rfl
  | case2 ts condition thenWord afterThen h g hempty =>
    rw [branches.eq_def, hthen, h]
    simp only [Option.map_some, Token.relaidSplit, List.map_eq_nil_iff]
    rw [hwhen, g]
    simp only [Option.map_none, if_pos hempty]
    rfl
  | case3 ts condition thenWord afterThen h g hempty =>
    rw [branches.eq_def, hthen, h]
    simp only [Option.map_some, Token.relaidSplit, List.map_eq_nil_iff]
    rw [hwhen, g]
    simp only [Option.map_none, if_neg hempty]
    rfl
  | case4 ts condition thenWord afterThen h result whenWord afterWhen g hempty =>
    rw [branches.eq_def, hthen, h]
    simp only [Option.map_some, Token.relaidSplit, List.map_eq_nil_iff]
    rw [hwhen, g]
    simp only [Option.map_some, Token.relaidSplit, List.map_eq_nil_iff, if_pos hempty]
    rfl
  | case5 ts condition thenWord afterThen h result whenWord afterWhen g hempty ih =>
    rw [branches.eq_def, hthen, h]
    simp only [Option.map_some, Token.relaidSplit, List.map_eq_nil_iff]
    rw [hwhen, g]
    simp only [Option.map_some, Token.relaidSplit, List.map_eq_nil_iff, if_neg hempty]
    rw [ih]
    cases branches depth afterWhen with
    | error fault => rfl
    | ok bs => rfl

/-! ### Nests -/

variable {N N' : List Cell}

theorem comparand_twins (h : NeatTwins free (stretch ts) (stretch (ts.map (Token.relaid l)))) :
    NeatTwins free (comparandCells ts) (comparandCells (ts.map (Token.relaid l))) := by
  unfold comparandCells
  rw [List.length_map]
  split
  · exact h
  · exact h.parens

theorem neat_equals : Neat free [equals] :=
  .token ⟨rfl, rfl, '=', [], rfl, rfl⟩

theorem condition_twins
    (ho : operand ≠ [] → NeatTwins free (stretch operand) (stretch (operand.map (Token.relaid l))))
    (hb : NeatTwins free (stretch b.condition) (stretch (b.condition.map (Token.relaid l)))) :
    NeatTwins free (conditionCells operand b) (conditionCells (operand.map (Token.relaid l)) (b.relaid l)) := by
  unfold conditionCells
  simp only [List.map_eq_nil_iff]
  split
  · exact hb
  · next hne => exact (comparand_twins (ho hne)).blank (M := _ :: Cell.space :: _) ((NeatTwins.refl neat_equals).blank (comparand_twins hb))

/-- The parts of a call with both layouts. -/
theorem arguments_twins
    (ho : operand ≠ [] → NeatTwins free (stretch operand) (stretch (operand.map (Token.relaid l))))
    (hb : NeatTwins free (stretch b.condition) (stretch (b.condition.map (Token.relaid l))) ∧
      NeatTwins free (stretch b.result) (stretch (b.result.map (Token.relaid l))))
    (hi : NeatTwins free N N') :
    NeatTwins free (callCells operand b N) (callCells (operand.map (Token.relaid l)) (b.relaid l) N') :=
  ((condition_twins ho hb.1).comma (hb.2.comma hi)).call isWord_iif (by decide)

theorem nest_twins
    (ho : operand ≠ [] → NeatTwins free (stretch operand) (stretch (operand.map (Token.relaid l))))
    (hbs : ∀ b ∈ bs, NeatTwins free (stretch b.condition) (stretch (b.condition.map (Token.relaid l))) ∧
      NeatTwins free (stretch b.result) (stretch (b.result.map (Token.relaid l))))
    (hi : NeatTwins free N N') :
    NeatTwins free (nestCells operand N bs)
      (nestCells (operand.map (Token.relaid l)) N' (bs.map (Branch.relaid l))) := by
  unfold nestCells
  induction bs with
  | nil => exact hi
  | cons b bs ih =>
    exact arguments_twins ho (hbs b List.mem_cons_self) (ih fun b hb => hbs b (List.mem_cons_of_mem _ hb))

/-! ### The edit -/

/-- A nest with branches is a call. -/
theorem exists_call (operand : List Token) (N : List Cell) (hbs : Branched ts bs) :
    ∃ P, nestCells operand N bs = Cell.word "IIf".toList :: Cell.sign '(' :: (P ++ [Cell.sign ')']) := by
  obtain ⟨b, bs, rfl⟩ := hbs.exists_cons
  exact ⟨_, rfl⟩

/-- The text for branches and for what applies where none does, if that is said. -/
def branchesText (depth : Nat) (operand ts : List Token) (otherwise : Option (List Token)) :
    Except CaseFault SqlText := do
  let bs ← branches depth ts
  if operand ≠ [] ∧ bs.length > 1 ∧ operand.any fun t => t.kind.isMarker then
    throw .markerInOperand
  match otherwise with
  | none => return nestText operand "Null".toList bs
  | some [] => throw .emptyElse
  | some us => return nestText operand (Token.spell us) bs

/-- Whether two texts are refused alike, or are those of nests with the same tokens. -/
def NestsAlike (free : Bool) (x y : Except CaseFault SqlText) : Prop :=
  (∃ fault, x = .error fault ∧ y = .error fault) ∨
    ∃ N N' P, NeatTwins free N N' ∧ N = Cell.word "IIf".toList :: Cell.sign '(' :: (P ++ [Cell.sign ')']) ∧
      x = .ok (Cell.spell N) ∧ y = .ok (Cell.spell N')

theorem branchesText_twins (ts : List Token) (otherwise : Option (List Token))
    (ho : operand ≠ [] → NeatTwins free (stretch operand) (stretch (operand.map (Token.relaid l))))
    (hts : ∀ us vs ws, ts = us ++ (vs ++ ws) → vs ≠ [] →
      NeatTwins free (stretch vs) (stretch (vs.map (Token.relaid l))))
    (hi : ∀ us ∈ otherwise, us ≠ [] → NeatTwins free (stretch us) (stretch (us.map (Token.relaid l)))) :
    NestsAlike free (branchesText depth operand ts otherwise)
      (branchesText depth (operand.map (Token.relaid l)) (ts.map (Token.relaid l))
        (otherwise.map (List.map (Token.relaid l)))) := by
  have hany : (operand.map (Token.relaid l)).any (fun t => t.kind.isMarker)
      = operand.any fun t => t.kind.isMarker := by
    rw [List.any_map]
    rfl
  unfold branchesText
  rw [branches_relaid, hany]
  simp only [ne_eq, List.map_eq_nil_iff]
  cases hbs : branches depth ts with
  | error fault => exact .inl ⟨fault, rfl, rfl⟩
  | ok bs =>
    show NestsAlike free (if _ then _ else _) (if _ then _ else _)
    rw [List.length_map]
    split
    · exact .inl ⟨_, rfl, rfl⟩
    have hbranched := branched hbs
    have hparts : ∀ b ∈ bs, NeatTwins free (stretch b.condition) (stretch (b.condition.map (Token.relaid l))) ∧
        NeatTwins free (stretch b.result) (stretch (b.result.map (Token.relaid l))) := by
      intro b hb
      obtain ⟨⟨hc, us, vs, hus⟩, hr, us', vs', hus'⟩ := hbranched.infixes hb
      exact ⟨hts _ _ _ hus hc, hts _ _ _ hus' hr⟩
    have hnest : ∀ {N N' : List Cell}, NeatTwins free N N' →
        NestsAlike free (.ok (nestText operand (Cell.spell N) bs))
          (.ok (nestText (operand.map (Token.relaid l)) (Cell.spell N') (bs.map (Branch.relaid l)))) := by
      intro N N' hN
      obtain ⟨P, hP⟩ := exists_call operand N hbranched
      exact .inr ⟨_, _, P, nest_twins ho hparts hN, hP, by rw [spell_nestCells], by rw [spell_nestCells]⟩
    cases otherwise with
    | none =>
      have hnull : Neat free [Cell.word "Null".toList] :=
        .word (Cell.isWord_of_isAlpha (by decide) (by decide)) (by decide)
      exact hnest (.refl hnull)
    | some us =>
      cases us with
      | nil => exact .inl ⟨_, rfl, rfl⟩
      | cons u us =>
        have helse := hnest (hi _ rfl (List.cons_ne_nil u us))
        rw [Token.spell_stretch, Token.spell_stretch] at helse
        exact helse

theorem caseText_twins (depth : Nat) (inside : List Token)
    (h : ∀ us vs ws, inside = us ++ (vs ++ ws) → vs ≠ [] →
      NeatTwins free (stretch vs) (stretch (vs.map (Token.relaid l)))) :
    NestsAlike free (caseText depth inside) (caseText depth (inside.map (Token.relaid l))) := by
  have hwhen := Token.splitFirst_relaid (l := l) (p := Token.isKeywordAt depth .WHEN) (fun _ => rfl) inside
  unfold caseText
  rw [hwhen]
  cases hfound : Token.splitFirst (Token.isKeywordAt depth .WHEN) inside with
  | none => exact .inl ⟨_, rfl, rfl⟩
  | some found =>
    obtain ⟨operand, whenWord, afterWhen⟩ := found
    obtain ⟨rfl, -, -⟩ := Token.splitFirst_eq_some hfound
    have helse := Token.splitFirst_relaid (l := l) (p := Token.isKeywordAt depth .ELSE) (fun _ => rfl) afterWhen
    simp only [Option.map_some, Token.relaidSplit]
    rw [helse]
    cases hcut : Token.splitFirst (Token.isKeywordAt depth .ELSE) afterWhen with
    | none =>
      exact branchesText_twins afterWhen none (h [] operand _ rfl)
        (fun us vs ws heq => h (operand ++ whenWord :: us) vs ws (by simp [heq])) (fun _ h => by cases h)
    | some cut =>
      obtain ⟨before, elseWord, after⟩ := cut
      obtain ⟨rfl, -, -⟩ := Token.splitFirst_eq_some hcut
      refine branchesText_twins before (some after) (h [] operand _ rfl) (fun us vs ws heq => ?_)
        fun us hus => ?_
      · exact h (operand ++ whenWord :: us) vs (ws ++ elseWord :: after) (by simp [heq])
      · cases hus
        exact h (operand ++ whenWord :: (before ++ [elseWord])) after [] (by simp)

theorem step_twins (h : q.Twins free l tail tail' q') :
    Except.Alike (Option.Rel fun e e' => q.EditsAlike free tail q' tail' [e] [e']) (step q) (step q') := by
  have hcase := Token.splitLast_relaid (l := l) (p := fun t => t.isKeyword .CASE) (fun _ => rfl) q.tokens
  unfold step
  rw [h.relaid.tokens, hcase]
  cases hlast : Token.splitLast (fun t => t.isKeyword .CASE) q.tokens with
  | none => exact .ok .none
  | some found =>
    obtain ⟨as, word, after⟩ := found
    obtain ⟨hq, hword, -⟩ := Token.splitLast_eq_some hlast
    have hend := Token.splitFirst_relaid (l := l) (p := Token.isKeywordAt word.depth .END) (fun _ => rfl) after
    simp only [Option.map_some, Token.relaidSplit, caseEdit, Token.relaid_depth]
    rw [hend]
    cases hfirst : Token.splitFirst (Token.isKeywordAt word.depth .END) after with
    | none => exact .error rfl
    | some cut =>
      obtain ⟨inside, last, more⟩ := cut
      obtain ⟨rfl, hlast', -⟩ := Token.splitFirst_eq_some hfirst
      have hsplit : q.tokens = as ++ ((word :: inside ++ [last]) ++ more) := by
        rw [hq]
        simp
      have htext := caseText_twins word.depth inside fun us vs ws heq hvs =>
        h.neat (show q.tokens = (as ++ word :: us) ++ (vs ++ (ws ++ last :: more)) by rw [hq, heq]; simp) hvs
      simp only [Option.map_some, Token.relaidSplit]
      rcases htext with ⟨fault, hone, hone'⟩ | ⟨N, N', P, hN, rfl, hone, hone'⟩
      · rw [hone, hone']
        exact .error rfl
      · have hkind : word.kind = .keyword .CASE := Kind.isKeyword_iff.1 hword
        have hkind' : last.kind = .keyword .END := Kind.isKeyword_iff.1 (Token.isKeyword_of_isKeywordAt hlast')
        rw [hone, hone']
        have hedit := h.editsAlike (t := word) (u := last) (B := .behind) hsplit rfl List.getLast?_concat id id hN
          (fun _ hd => Cell.leads_word (by decide) (by rw [hkind]; rfl) hd) (Cell.getLast?_call _ P) fun hlead => by
            rw [Token.cell, hkind'] at hlead
            exact hlead.right rfl
        exact .ok (.some ⟨.behind, .cons hedit .nil⟩)

theorem twins (h : Text.Twins free s s') : Except.Alike (Text.Twins free) (convert s) (convert s') :=
  h.exhaust step_twins shrinks

end JetAdapter.Conditional
