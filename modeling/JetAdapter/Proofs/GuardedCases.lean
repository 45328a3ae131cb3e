import JetAdapter.Guarded.Rule
import JetAdapter.Proofs.GuardedEdits
import JetAdapter.Proofs.Placement

/-!
# Guarded conditional expressions

Replacing the `CASE` expressions makes no step that must not be made.  The words of a `CASE` are found one behind the
other, so the ranges between them cover what the words enclose, and the branches end before there are more rounds than
tokens.
-/

namespace JetAdapter.Guarded

variable {T : TokenTable} {q : Query} {r : TokenRange} {t : Token} {ts operand : List Token} {i stop depth : Nat}

/-- Faults of a `CASE` are reported as such. -/
def liftCase {α : Type} (x : Except CaseFault α) : Guarded α :=
  lift (x.mapError fun fault => .unsupportedConstruct (.caseExpression fault))

@[simp] theorem liftCase_ok {α : Type} (a : α) : liftCase (.ok a) = .ok a := rfl

@[simp] theorem liftCase_error {α : Type} (fault : CaseFault) :
    liftCase (.error fault : Except CaseFault α) = malformedCase fault := rfl

/-! ### Branches -/

/-- Whether a branch of a table is a branch of a query. -/
structure CoversBranch (q : Query) (b : CaseBranch) (branch : Conditional.Branch) : Prop where
  condition : CoversTokens q b.condition branch.condition
  result : CoversTokens q b.result branch.result

/-- A round that finds its `THEN`. -/
theorem caseBranches_succ (h : T.Holds q) (rounds : Nat) {condition afterThen : List Token} {word : Token}
    (hr : CoversTokens q ⟨i + 1, stop⟩ ts)
    (hthen : Token.splitFirst (Token.isKeywordAt depth .THEN) ts = some (condition, word, afterThen)) :
    ∃ start, CoversTokens q ⟨i + 1, start⟩ condition ∧ CoversTokens q ⟨start + 1, stop⟩ afterThen ∧
      caseBranches T depth stop (rounds + 1) i =
        let next := ((Token.splitFirst (Token.isKeywordAt depth .WHEN) afterThen).map
          fun (before, _, _) => start + 1 + before.length).getD stop
        let branch : CaseBranch := ⟨⟨i + 1, start⟩, ⟨start + 1, next⟩⟩
        if branch.condition.size = 0 ∨ branch.result.size = 0 then malformedCase .emptyBranch
        else do return branch :: (← caseBranches T depth stop rounds next) := by
  obtain ⟨rfl, -⟩ := Token.splitFirst_eq_some hthen
  have hstop : stop = i + 1 + (condition ++ word :: afterThen).length := hr.stop_eq
  have hafter := hr.right.tail
  refine ⟨i + 1 + condition.length, hr.left, hafter, ?_⟩
  rw [caseBranches, if_neg (by omega), h.findKeyword_eq hr, ok_bind, hthen]
  simp only [Option.map_some, h.findKeyword_eq hafter, ok_bind]

theorem caseBranches_stop (T : TokenTable) (depth stop rounds : Nat) : caseBranches T depth stop rounds stop = .ok [] := by
  cases rounds with
  | zero => rfl
  | succ rounds => exact if_pos (Nat.le_refl _)

/-- Going from `WHEN` to `WHEN` finds the branches, if there are more rounds than tokens. -/
theorem caseBranches_cases (h : T.Holds q) {rounds : Nat} (hr : CoversTokens q ⟨i + 1, stop⟩ ts)
    (hrounds : ts.length ≤ rounds) :
    (∃ fault, Conditional.branches depth ts = .error fault ∧
        caseBranches T depth stop (rounds + 1) i = malformedCase fault) ∨
      ∃ bs bs', Conditional.branches depth ts = .ok bs ∧ caseBranches T depth stop (rounds + 1) i = .ok bs' ∧
        List.Forall₂ (CoversBranch q) bs' bs := by
  fun_induction Conditional.branches depth ts generalizing i rounds with
  | case1 ts hthen =>
    have hstop : stop = i + 1 + ts.length := hr.stop_eq
    rw [caseBranches, if_neg (by omega), h.findKeyword_eq hr, ok_bind, hthen]
    exact .inl ⟨_, rfl, rfl⟩
  | case2 ts condition word afterThen hthen hwhen hempty =>
    obtain ⟨start, hcondition, hafter, hround⟩ := caseBranches_succ h rounds hr hthen
    rw [hwhen] at hround
    exact .inl ⟨_, rfl, hround.trans (if_pos (hempty.imp hcondition.size_eq_zero_iff.2 hafter.size_eq_zero_iff.2))⟩
  | case3 ts condition word afterThen hthen hwhen hempty =>
    obtain ⟨start, hcondition, hafter, hround⟩ := caseBranches_succ h rounds hr hthen
    have hsizes := hempty ∘ Or.imp hcondition.size_eq_zero_iff.1 hafter.size_eq_zero_iff.1
    rw [hwhen] at hround
    refine .inr ⟨_, [⟨⟨i + 1, start⟩, ⟨start + 1, stop⟩⟩], rfl, ?_, .cons ⟨hcondition, hafter⟩ .nil⟩
    refine hround.trans ((if_neg hsizes).trans ?_)
    rw [Option.map_none, Option.getD_none, caseBranches_stop]
    rfl
  | case4 ts condition word afterThen hthen result next afterWhen hwhen hempty =>
    obtain ⟨start, hcondition, hafter, hround⟩ := caseBranches_succ h rounds hr hthen
    obtain ⟨rfl, -⟩ := Token.splitFirst_eq_some hwhen
    rw [hwhen] at hround
    exact .inl ⟨_, rfl,
      hround.trans (if_pos (hempty.imp hcondition.size_eq_zero_iff.2 hafter.left.size_eq_zero_iff.2))⟩
  | case5 ts condition word afterThen hthen result next afterWhen hwhen hempty ih =>
    obtain ⟨start, hcondition, hafter, hround⟩ := caseBranches_succ h rounds hr hthen
    obtain ⟨rfl, -⟩ := Token.splitFirst_eq_some hthen
    obtain ⟨rfl, -⟩ := Token.splitFirst_eq_some hwhen
    have hsizes := hempty ∘ Or.imp hcondition.size_eq_zero_iff.1 hafter.left.size_eq_zero_iff.1
    rw [hwhen] at hround
    simp only [List.length_append, List.length_cons] at hrounds
    obtain ⟨rounds, rfl⟩ := Nat.exists_eq_add_one_of_ne_zero (show rounds ≠ 0 by omega)
    rcases ih hafter.right.tail
      (show afterWhen.length ≤ rounds by omega) with ⟨fault, hfault, hrest⟩ | ⟨bs, bs', hbs, hrest, hcovers⟩
    · refine .inl ⟨fault, by rw [hfault]; rfl, ?_⟩
      refine hround.trans ((if_neg hsizes).trans ?_)
      rw [Option.map_some, Option.getD_some, hrest]
      rfl
    · refine .inr ⟨_, ⟨⟨i + 1, start⟩, ⟨start + 1, start + 1 + result.length⟩⟩ :: bs', by rw [hbs]; rfl, ?_,
        .cons ⟨hcondition, hafter.left⟩ hcovers⟩
      refine hround.trans ((if_neg hsizes).trans ?_)
      rw [Option.map_some, Option.getD_some, hrest]
      rfl

/-! ### Texts -/

theorem comparand_eq (h : T.Holds q) (hr : CoversTokens q r ts) : comparand T r = .ok (Conditional.comparand ts) := by
  rw [comparand, h.rangeText_eq hr, ok_bind, hr.size_eq, Conditional.comparand]
  split <;> rfl

theorem branchText_eq {b : CaseBranch} {branch : Conditional.Branch} (h : T.Holds q) (ho : CoversTokens q r operand)
    (hb : CoversBranch q b branch) (inner : SqlText) :
    branchText T r b inner = .ok ("IIf(".toList ++ Text.joinWith [',', ' ']
      [Conditional.conditionText operand branch, Token.spell branch.result, inner] ++ [')']) := by
  have hcondition : conditionText T r b = .ok (Conditional.conditionText operand branch) := by
    rw [conditionText, Conditional.conditionText]
    simp only [ho.size_eq_zero_iff, h.rangeText_eq hb.condition, comparand_eq h ho, comparand_eq h hb.condition, ok_bind]
    split <;> rfl
  rw [branchText, hcondition, ok_bind, h.rangeText_eq hb.result]
  rfl

theorem foldrM_branchText {bs : List CaseBranch} {branches : List Conditional.Branch} (h : T.Holds q)
    (ho : CoversTokens q r operand) (hbs : List.Forall₂ (CoversBranch q) bs branches) (otherwise : SqlText) :
    bs.foldrM (branchText T r) otherwise = .ok (Conditional.nestText operand otherwise branches) := by
  induction hbs with
  | nil => rfl
  | cons hb _ ih =>
    rw [List.foldrM_cons, ih, ok_bind, branchText_eq h ho hb]
    rfl

/-- Whether a `CASE` with an operand and `n` branches would bind a marker twice. -/
theorem bind_hasMarker {α : Type} (h : T.Holds q) (ho : CoversTokens q r operand) (n : Nat) (k : Bool → Guarded α) :
    (if r.size ≠ 0 ∧ n > 1 then T.hasMarker r >>= k else pure false >>= k)
      = k (decide (operand ≠ [] ∧ n > 1 ∧ (operand.any fun t => t.kind.isMarker) = true)) := by
  by_cases hne : operand = []
  · rw [if_neg fun h => h.1 (ho.size_eq_zero_iff.2 hne)]
    simp [hne]
  · by_cases hn : n > 1
    · rw [if_pos ⟨fun hs => hne (ho.size_eq_zero_iff.1 hs), hn⟩, h.hasMarker_eq ho hne]
      generalize (operand.any fun t => t.kind.isMarker) = marked
      simp [hne, hn]
    · rw [if_neg fun h => hn h.2]
      simp [hn]

/-- What is made of the branches, unless a marker would be bound twice. -/
theorem bind_caseBranches {start : Nat} {K : List CaseBranch → Guarded SqlText}
    (K' : List Conditional.Branch → Except CaseFault SqlText) (h : T.Holds q) (ho : CoversTokens q r operand)
    (hr : CoversTokens q ⟨start + 1, stop⟩ ts)
    (hK : ∀ bs bs', List.Forall₂ (CoversBranch q) bs' bs → K bs' = liftCase (K' bs)) :
    (do
      let bs ← caseBranches T depth stop (stop - start) start
      let isBoundTwice ← if r.size ≠ 0 ∧ bs.length > 1 then T.hasMarker r else pure false
      if isBoundTwice then malformedCase .markerInOperand else K bs)
      = liftCase (do
        let bs ← Conditional.branches depth ts
        if operand ≠ [] ∧ bs.length > 1 ∧ operand.any fun t => t.kind.isMarker then throw .markerInOperand
        K' bs) := by
  have hstop : stop = start + 1 + ts.length := hr.stop_eq
  have hrounds : stop - start = ts.length + 1 := by omega
  rw [hrounds]
  rcases caseBranches_cases h hr (Nat.le_refl _) with ⟨fault, hfault, heq⟩ | ⟨bs, bs', hbs, heq, hcovers⟩
  · rw [hfault, heq]
    rfl
  · rw [hbs, heq, ok_bind]
    refine (bind_hasMarker h ho bs'.length _).trans ?_
    rw [hcovers.length_eq]
    by_cases htwice : operand ≠ [] ∧ bs.length > 1 ∧ (operand.any fun t => t.kind.isMarker) = true
    · refine (if_pos (decide_eq_true htwice)).trans ?_
      show _ = liftCase (ite _ _ _)
      rw [if_pos htwice]
      rfl
    · refine (if_neg (by rwa [decide_eq_true_eq])).trans ((hK bs bs' hcovers).trans ?_)
      exact congrArg liftCase (if_neg htwice).symm

/-- The text for a `CASE` is that for the tokens between its word and its `END`. -/
theorem caseText_eq (h : T.Holds q) (hr : CoversTokens q ⟨i, stop⟩ ts) :
    caseText T depth i stop = liftCase (Conditional.caseText depth ts) := by
  rw [caseText, h.findKeyword_eq hr, ok_bind, Conditional.caseText]
  cases hsplit : Token.splitFirst (Token.isKeywordAt depth .WHEN) ts with
  | none => rfl
  | some parts =>
    obtain ⟨operand, first, afterWhen⟩ := parts
    obtain ⟨rfl, hfirst, -⟩ := Token.splitFirst_eq_some hsplit
    have hrest : CoversTokens q ⟨i + operand.length, stop⟩ (first :: afterWhen) := hr.right
    have hnot : Token.isKeywordAt depth .ELSE first = false := by
      refine Bool.eq_false_iff.2 fun helse => ?_
      have hwhen := Kind.isKeyword_iff.1 (Token.isKeyword_of_isKeywordAt hfirst)
      have := Kind.isKeyword_iff.1 (Token.isKeyword_of_isKeywordAt helse)
      rw [hwhen] at this
      cases this
    simp only [Option.map_some, h.findKeyword_eq hrest, ok_bind]
    rw [Token.splitFirst, hnot]
    cases helse : Token.splitFirst (Token.isKeywordAt depth .ELSE) afterWhen with
    | none =>
      refine bind_caseBranches (fun bs => .ok (Conditional.nestText operand "Null".toList bs)) h hr.left hrest.tail
        fun bs bs' hbs => ?_
      exact foldrM_branchText h hr.left hbs _
    | some parts =>
      obtain ⟨before, word, after⟩ := parts
      obtain ⟨rfl, -⟩ := Token.splitFirst_eq_some helse
      have hafter : CoversTokens q ⟨i + operand.length + (before.length + 1) + 1, stop⟩ after := by
        have := hrest.tail.right.tail
        rwa [Nat.add_assoc (i + operand.length), Nat.add_comm 1] at this
      have hbefore : CoversTokens q ⟨i + operand.length + 1, i + operand.length + (before.length + 1)⟩ before := by
        have := hrest.tail.left
        rwa [Nat.add_assoc (i + operand.length), Nat.add_comm 1] at this
      have hstop := hafter.stop_eq
      cases after with
      | nil =>
        refine bind_caseBranches (fun bs => .error .emptyElse) h hr.left hbefore fun bs bs' hbs => ?_
        exact if_neg (Nat.not_lt.2 (Nat.le_of_eq hstop))
      | cons t ts =>
        refine bind_caseBranches (fun bs => .ok (Conditional.nestText operand (Token.spell (t :: ts)) bs)) h hr.left
          hbefore fun bs bs' hbs => ?_
        have hlt : i + operand.length + (before.length + 1) + 1 < stop := by
          simp only [List.length_cons] at hstop
          omega
        have htext : T.rangeText ⟨i + operand.length + (first :: before).length + 1, stop⟩ = .ok (Token.spell (t :: ts)) :=
          h.rangeText_eq hafter
        refine (if_pos hlt).trans ?_
        rw [htext, ok_bind]
        exact foldrM_branchText h hr.left hbs _

/-! ### The rule -/

/-- The last `CASE` is looked for from the end. -/
theorem find?_case (h : T.Holds q) : ((List.range' 0 q.tokens.length).reverse.find? fun i => T.isKeyword i .CASE)
    = (Token.splitLast (fun t => t.isKeyword .CASE) q.tokens).map fun (before, _, _) => before.length := by
  have hall : CoversTokens q ⟨0, q.tokens.length⟩ q.tokens := CoversTokens.of_drop (Nat.zero_le _)
  have hfind := hall.findM?_reverse (f := fun i => .ok (T.isKeyword i .CASE)) (p := fun t => t.isKeyword .CASE)
    fun i t ht => by rw [h.isKeyword_eq, ht]; rfl
  rw [findM?_eq fun _ _ => rfl, hall.indices_eq] at hfind
  rw [Except.ok.inj hfind]
  cases Token.splitLast (fun t => t.isKeyword .CASE) q.tokens with
  | none => rfl
  | some parts => exact congrArg some (Nat.zero_add _)

theorem caseStep_eq (h : T.Holds q) : caseStep T = lift (Conditional.step q) := by
  rw [caseStep, h.indices_eq, ok_bind, find?_case h, Conditional.step]
  cases hlast : Token.splitLast (fun t => t.isKeyword .CASE) q.tokens with
  | none => rfl
  | some parts =>
    obtain ⟨before, word, after⟩ := parts
    obtain ⟨hq, -⟩ := Token.splitLast_eq_some hlast
    have hword : q.tokens[before.length]? = some word := by
      rw [hq, List.getElem?_append_right (Nat.le_refl _), Nat.sub_self]
      rfl
    have hafter : CoversTokens q ⟨before.length + 1, q.tokens.length⟩ after := by
      have hdrop : q.tokens.drop (before.length + 1) = after := by
        rw [hq, ← List.drop_drop, List.drop_left]
        rfl
      have := CoversTokens.of_drop (List.getElem?_eq_some_iff.1 hword).1
      rwa [hdrop] at this
    simp only [Option.map_some, h.token_eq hword, ok_bind, h.eof_eq, h.findKeyword_eq hafter, Conditional.caseEdit]
    cases hend : Token.splitFirst (Token.isKeywordAt word.depth .END) after with
    | none => rfl
    | some parts =>
      obtain ⟨inside, last, rest⟩ := parts
      obtain ⟨rfl, -⟩ := Token.splitFirst_eq_some hend
      simp only [Option.map_some, caseText_eq h hafter.left, h.spanTo_eq hword hafter.getElem?, ok_bind]
      cases Conditional.caseText word.depth inside <;> rfl

theorem convertCases_eq (text : SqlText) : convertCases text = lift (Conditional.convert text) :=
  exhaust_eq (fun _ _ h => caseStep_eq h) (fun _ _ _ hread he => (Conditional.isSwap hread he).fits) text

end JetAdapter.Guarded
