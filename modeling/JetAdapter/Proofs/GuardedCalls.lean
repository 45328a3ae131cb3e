import JetAdapter.Guarded.Rule
import JetAdapter.Proofs.GuardedEdits
import JetAdapter.Proofs.NestedFunctions
import JetAdapter.Proofs.Placement

/-!
# Guarded calls

The rules that look at single calls make no step that must not be made.  The parts of a call stand one behind the other
(`Query.CallAt`), so every number that is built from that of its name is the number of a token: its parentheses, its
arguments, the word `AS` or `FROM` inside, and the token before the word.
-/

namespace JetAdapter

open Guarded (ok_bind lift lift_bind lift_ok refuse minus_eq)

variable {T : TokenTable} {q : Query} {c : Call} {t : Token} {ts : List Token} {r : TokenRange} {i : Nat}

/-! ### The parts of a call -/

/-- Whether a call starts at a token: where its parts stand. -/
structure Query.CallAt (q : Query) (i : Nat) (c : Call) : Prop where
  name : q.tokens[i]? = some c.name
  opening : q.tokens[i + 1]? = some c.opening
  args : CoversTokens q ⟨i + 2, i + 2 + c.args.length⟩ c.args
  closing : q.tokens[i + 2 + c.args.length]? = some c.closing
  whole : CoversTokens q ⟨i, i + 2 + c.args.length + 1⟩ c.tokens

theorem Query.callAt_of_eq_some (hc : q.callAt? i = some c) : q.CallAt i c := by
  obtain ⟨htokens, -⟩ := covers_of_callAt? hc
  have hlength : c.tokens.length = c.args.length + 3 := by simp [Call.tokens]
  have hargs := htokens.tail.tail.left
  refine ⟨htokens.head, htokens.tail.head, hargs, htokens.tail.tail.getElem?, ?_⟩
  have hstop : i + 2 + c.args.length + 1 = i + c.tokens.length := by omega
  rw [hstop]
  exact htokens

/-- The name of a call that is a keyword is not looked at any further. -/
theorem TokenTable.Holds.callAt_keyword {k : Keyword} {name : SqlText} (h : T.Holds q) (ht : q.tokens[i]? = some t)
    (hk : t.isKeyword k = true) (hspells : Text.sameWord k.spelling name = true) (hne : name ≠ [])
    (hname : (Text.lower name).all Char.isAlpha = true) :
    T.callAt i name = .ok ((q.callAt? i).map fun c => (i + 1, i + 2 + c.args.length)) := by
  obtain ⟨cells, hread⟩ := h.read
  obtain ⟨as, bs, hq⟩ := List.append_of_mem (List.mem_of_getElem? ht)
  rw [h.callAt_eq ht hne hname]
  cases hc : q.callAt? i with
  | none => rfl
  | some c =>
    obtain rfl : c.name = t := Option.some.inj ((Query.callAt_of_eq_some hc).name.symm.trans ht)
    have hs : c.name.spells name = true := (Token.sameWord_of_isKeyword (hread.fits hq) hk name).trans hspells
    rw [Option.filter_some, if_pos hs]

namespace Guarded

/-! ### Letter case functions -/

theorem letterCaseEdit_eq (h : T.Holds q) (ht : q.tokens[i]? = some t) :
    letterCaseEdit T i = ((q.callAt? i).filter fun c => LetterCase.isName c.name).elim (.ok none) fun c =>
      (lift (.ok ⟨c.name.span, LetterCase.jetName c.name⟩)).map some := by
  rw [letterCaseEdit, h.callAt_eq ht (by decide) (by decide), ok_bind, h.callAt_eq ht (by decide) (by decide), ok_bind]
  cases hc : q.callAt? i with
  | none => rfl
  | some c =>
    obtain rfl : c.name = t := Option.some.inj ((Query.callAt_of_eq_some hc).name.symm.trans ht)
    simp only [Option.filter_some, LetterCase.isName, h.spelling_eq ht, h.spanTo_eq ht ht, ok_bind]
    unfold LetterCase.jetName
    generalize "upper".toList = upper
    generalize "lower".toList = lower
    by_cases hupper : c.name.spells upper = true
    · simp [hupper, PlacedLexeme.span]
    · by_cases hlower : c.name.spells lower = true
      · simp [hupper, hlower, PlacedLexeme.span]
      · simp [hupper, hlower]

/-- Making something of each token that is the name of a call. -/
theorem filterMapM_calls {β : Type} {F : Nat → Guarded (Option β)} {p : Token → Bool} {k : Call → Except SqlError β}
    (h : T.Holds q) (hF : ∀ i t, q.tokens[i]? = some t →
      F i = ((q.callAt? i).filter fun c => p c.name).elim (.ok none) fun c => (lift (k c)).map some) :
    (do (← T.indices).filterMapM F) = lift ((q.calls p).mapM k) := by
  rw [h.indices_eq, ok_bind, Query.calls_eq]
  refine filterMapM_eq fun i hi => ?_
  obtain ⟨t, ht⟩ := q.exists_token hi
  exact hF i t ht

theorem rename_eq (text : SqlText) : rename text = lift (LetterCase.rename text) := by
  have hedits := edits_eq (F := fun T => do (← T.indices).filterMapM (letterCaseEdit T))
    (f := fun q => .ok ((q.calls LetterCase.isName).map fun c => ⟨c.name.span, LetterCase.jetName c.name⟩))
    (fun T q h => ?_) (fun q tail es hread hes e he => ?_) text
  · simp only [bind_assoc] at hedits
    exact hedits
  · rw [filterMapM_calls h fun i t ht => letterCaseEdit_eq h ht]
    exact congrArg lift List.mapM_pure
  · cases hes
    exact LetterCase.fits hread he

/-! ### Casts -/

theorem identifiers_eq (h : T.Holds q) (hr : CoversTokens q r ts) :
    identifiers T r.indices = .ok ((ts.takeWhile fun t => t.kind.isIdentifier).map fun t => t.text) := by
  obtain ⟨i, stop⟩ := r
  rw [hr.indices_eq]
  induction ts generalizing i with
  | nil => rfl
  | cons t ts ih =>
    rw [List.length_cons, List.range'_succ, identifiers, h.token_eq hr.head, ok_bind, List.takeWhile_cons]
    cases t.kind.isIdentifier with
    | true =>
      rw [if_pos rfl, if_pos rfl, h.spelling_eq hr.head, ok_bind, ih _ hr.tail]
      rfl
    | false => rfl

theorem castEdits_eq (h : T.Holds q) (hc : q.CallAt i c) :
    castEdits T i (i + 1) (i + 2 + c.args.length) = .ok (Cast.callEdits c) := by
  have hword := hc.args.findM?_reverse (f := fun i => do return (← T.token i).isKeywordAt (c.opening.depth + 1) .AS)
    (p := Token.isKeywordAt (c.opening.depth + 1) .AS) fun i t ht => by rw [h.token_eq ht]; rfl
  rw [castEdits, h.token_eq hc.opening, ok_bind, Cast.callEdits]
  simp only
  rw [hword, ok_bind]
  cases hsplit : Token.splitLast (Token.isKeywordAt (c.opening.depth + 1) .AS) c.args with
  | none => rfl
  | some parts =>
    obtain ⟨operand, word, type⟩ := parts
    obtain ⟨hargs, -⟩ := Token.splitLast_eq_some hsplit
    have hinside := hc.args
    rw [hargs] at hinside
    have htype : CoversTokens q ⟨i + 2 + operand.length + 1, i + 2 + c.args.length⟩ type := by
      rw [hargs]
      exact hinside.right.tail
    simp only [Option.map_some]
    rcases List.eq_nil_or_concat operand with rfl | ⟨front, last, rfl⟩
    · exact if_pos rfl
    · rw [List.concat_eq_append] at *
      have hne : ¬ i + 2 + (front ++ [last]).length = i + 1 + 1 := by
        rw [List.length_append, List.length_singleton]
        omega
      have hlast : q.tokens[i + 2 + (front ++ [last]).length - 1]? = some last := by
        rw [List.length_append, List.length_singleton]
        exact hinside.left.getElem?
      have hfront : front ++ [last] ≠ [] := List.append_ne_nil_of_right_ne_nil _ (List.cons_ne_nil _ _)
      rw [if_neg hne, if_neg hfront, identifiers_eq h htype, ok_bind, Cast.typeName, List.map_map]
      have hname : Text.lower ∘ (fun t : Token => t.text) = fun t => Text.lower t.text := rfl
      rw [hname]
      cases Cast.conversion? (Text.joinWith [' '] ((type.takeWhile fun t => t.kind.isIdentifier).map
        fun t => Text.lower t.text)) with
      | none =>
        simp only [h.rangeText_eq htype, ok_bind]
        rfl
      | some function =>
        simp only [minus_eq (show 1 ≤ i + 2 + (front ++ [last]).length by omega), ok_bind, h.token_eq hlast,
          h.spanTo_eq hc.name hc.opening, h.token_eq hc.closing, Token.stopOr_concat]
        rfl

theorem castEditsAt_eq (h : T.Holds q) (ht : q.tokens[i]? = some t) :
    castEditsAt T i = .ok (((q.callAt? i).filter fun c => c.name.isKeyword .CAST).elim [] Cast.callEdits) := by
  rw [castEditsAt, h.isKeyword_eq, ht, Option.any_some]
  by_cases hcast : t.isKeyword .CAST = true
  · rw [if_pos hcast, h.callAt_keyword ht hcast (by decide) (by decide) (by decide), ok_bind]
    cases hc : q.callAt? i with
    | none => rfl
    | some c =>
      have hparts := Query.callAt_of_eq_some hc
      obtain rfl : c.name = t := Option.some.inj (hparts.name.symm.trans ht)
      rw [Option.filter_some, if_pos hcast]
      exact castEdits_eq h hparts
  · rw [if_neg hcast]
    cases hc : q.callAt? i with
    | none => rfl
    | some c =>
      obtain rfl : c.name = t := Option.some.inj ((Query.callAt_of_eq_some hc).name.symm.trans ht)
      rw [Option.filter_some, if_neg hcast]
      rfl

/-- Making things of each token that is the name of a call. -/
theorem mapM_calls {β : Type} {F : Nat → Guarded (List β)} {p : Token → Bool} {k : Call → List β} (h : T.Holds q)
    (hF : ∀ i t, q.tokens[i]? = some t → F i = .ok (((q.callAt? i).filter fun c => p c.name).elim [] k)) :
    (do return (← (← T.indices).mapM F).flatten) = .ok ((q.calls p).flatMap k) := by
  have hmap : (List.range' 0 q.tokens.length).mapM F = .ok ((List.range' 0 q.tokens.length).map
      fun i => ((q.callAt? i).filter fun c => p c.name).elim [] k) := by
    refine mapM_eq fun i hi => ?_
    obtain ⟨t, ht⟩ := q.exists_token hi
    exact hF i t ht
  rw [h.indices_eq, ok_bind, hmap, ok_bind, Query.calls_eq]
  show Except.ok _ = Except.ok _
  congr 1
  generalize List.range' 0 q.tokens.length = is
  induction is with
  | nil => rfl
  | cons i is ih =>
    rw [List.map_cons, List.flatten_cons, ih, List.filterMap_cons]
    cases (q.callAt? i).filter fun c => p c.name with
    | none => rfl
    | some c => rfl

theorem convertCasts_eq (text : SqlText) : convertCasts text = lift (Cast.convert text) := by
  have hedits := edits_eq (F := fun T => do return (← (← T.indices).mapM (castEditsAt T)).flatten)
    (f := fun q => .ok ((q.calls fun t => t.isKeyword .CAST).flatMap Cast.callEdits))
    (fun T q h => mapM_calls h fun i t ht => castEditsAt_eq h ht) (fun q tail es hread hes e he => ?_) text
  · simp only [bind_assoc, pure_bind] at hedits
    exact hedits
  · cases hes
    exact Cast.fits hread he

/-! ### Parts of dates -/

theorem extractEdit_eq (h : T.Holds q) (hc : q.CallAt i c) :
    extractEdit T i (i + 1) (i + 2 + c.args.length) = lift (Extract.callEdit c) := by
  have hargs := hc.args
  have hmalformed : (do
      refuse (.unsupportedConstruct (.extractForm (← T.rangeText ⟨i, i + 2 + c.args.length + 1⟩))) : Guarded Edit)
        = lift (.error (.unsupportedConstruct (.extractForm (Token.spell c.tokens)))) := by
    rw [h.rangeText_eq hc.whole]
    rfl
  rw [extractEdit, Extract.callEdit]
  simp only [hmalformed]
  -- There are three tokens inside at least.
  match hshape : c.args with
  | [] => exact if_pos (.inl (by simp))
  | [_] => exact if_pos (.inl (by simp))
  | [_, _] => exact if_pos (.inr (.inr (by simp)))
  | field :: fromWord :: first :: more =>
    rw [hshape] at hargs
    have hfield := hargs.head
    have hfrom := hargs.tail.head
    have hword : T.isKeyword (i + 1 + 2) .FROM = fromWord.isKeyword .FROM := by
      rw [h.isKeyword_eq, hfrom]
      rfl
    simp only
    by_cases hfromWord : fromWord.isKeyword .FROM = true
    · have henough : ¬ (i + 2 + (field :: fromWord :: first :: more).length ≤ i + 1 + 2 ∨
          T.isKeyword (i + 1 + 2) .FROM = false ∨
            i + 1 + 2 + 1 = i + 2 + (field :: fromWord :: first :: more).length) := by
        rintro (hle | hnot | heq)
        · rw [List.length_cons, List.length_cons, List.length_cons] at hle
          omega
        · rw [hword, hfromWord] at hnot
          cases hnot
        · rw [List.length_cons, List.length_cons, List.length_cons] at heq
          omega
      rw [if_neg henough, h.token_eq hfield, ok_bind]
      by_cases hidentifier : field.kind.isIdentifier = true
      · rw [if_pos hidentifier, if_pos ⟨hidentifier, hfromWord⟩, h.spelling_eq hfield, ok_bind]
        cases Extract.interval? field.text with
        | none => rfl
        | some interval =>
          simp only [h.spanTo_eq hc.name hfrom, ok_bind]
          rfl
      · rw [if_neg hidentifier, if_neg fun h => hidentifier h.1]
    · rw [if_pos (.inr (.inl (by simpa [hword] using hfromWord))), if_neg fun h => hfromWord h.2]

theorem extractEditAt_eq (h : T.Holds q) (ht : q.tokens[i]? = some t) :
    extractEditAt T i = ((q.callAt? i).filter fun c => c.name.spells "extract".toList).elim (.ok none) fun c =>
      (lift (Extract.callEdit c)).map some := by
  rw [extractEditAt, h.callAt_eq ht (by decide) (by decide), ok_bind]
  cases hfound : (q.callAt? i).filter fun c => c.name.spells "extract".toList with
  | none => rfl
  | some c =>
    have hc := Query.callAt_of_eq_some (Option.eq_some_of_filter_eq_some hfound)
    simp only [Option.map_some, Option.elim_some, extractEdit_eq h hc]
    cases Extract.callEdit c <;> rfl

theorem convertExtracts_eq (text : SqlText) : convertExtracts text = lift (Extract.convert text) := by
  have hedits := edits_eq (F := fun T => do (← T.indices).filterMapM (extractEditAt T))
    (f := fun q => (q.calls fun t => t.spells "extract".toList).mapM Extract.callEdit)
    (fun T q h => filterMapM_calls h fun i t ht => extractEditAt_eq h ht)
    (fun q tail es hread hes e he => Extract.fits hread hes he) text
  simp only [bind_assoc] at hedits
  exact hedits

/-! ### Searching in texts -/

theorem searchText_eq {rs : List TokenRange} {items : List (List Token)} (h : T.Holds q)
    (hrs : List.Forall₂ (CoversTokens q) rs items) : searchText T rs = .ok (Locate.replacement? items) := by
  match hrs with
  | .nil => rfl
  | .cons _ .nil => rfl
  | .cons hneedle (.cons hhaystack .nil) =>
    rw [searchText, Locate.replacement?]
    simp only [hneedle.size_eq_zero_iff, hhaystack.size_eq_zero_iff, h.rangeText_eq hneedle, h.rangeText_eq hhaystack,
      ok_bind]
    split <;> rfl
  | .cons hneedle (.cons hhaystack (.cons hstart .nil)) =>
    rw [searchText, Locate.replacement?]
    simp only [hneedle.size_eq_zero_iff, hhaystack.size_eq_zero_iff, hstart.size_eq_zero_iff, h.rangeText_eq hneedle,
      h.rangeText_eq hhaystack, h.rangeText_eq hstart, ok_bind]
    split <;> rfl
  | .cons _ (.cons _ (.cons _ (.cons _ _))) => rfl

/-- What is found with its number is what is found without. -/
theorem findSome?_map_cases {α β : Type} {found? : Nat → Option α} (f : Nat → α → β) (is : List Nat) :
    (is.findSome? fun i => (found? i).map (f i)) = none ∧ is.findSome? found? = none ∨
      ∃ i a, found? i = some a ∧ (is.findSome? fun i => (found? i).map (f i)) = some (f i a) ∧
        is.findSome? found? = some a := by
  induction is with
  | nil => exact .inl ⟨rfl, rfl⟩
  | cons i is ih =>
    rw [List.findSome?_cons, List.findSome?_cons]
    cases hfound : found? i with
    | some a => exact .inr ⟨i, a, hfound, rfl, rfl⟩
    | none => exact ih

theorem searchStep_eq (h : T.Holds q) : searchStep T = lift (Locate.step q) := by
  have hsearch : (List.range' 0 q.tokens.length).reverse.findSomeM? (searchAt T)
      = .ok ((List.range' 0 q.tokens.length).reverse.findSome? fun i =>
        ((q.callAt? i).filter fun c => c.name.spells "locate".toList).map
          fun c => (i, i + 1, i + 2 + c.args.length)) := by
    refine findSomeM?_eq fun i hi => ?_
    obtain ⟨t, ht⟩ := q.exists_token (List.mem_reverse.1 hi)
    rw [searchAt, h.callAt_eq ht (by decide) (by decide), ok_bind]
    cases (q.callAt? i).filter fun c => c.name.spells "locate".toList <;> rfl
  rw [searchStep, h.indices_eq, ok_bind, hsearch, ok_bind, Locate.step, Query.calls_eq, List.getLast?_filterMap]
  rcases findSome?_map_cases (fun i (c : Call) => (i, i + 1, i + 2 + c.args.length)) (List.range' 0 q.tokens.length).reverse
    with ⟨hnone, hnone'⟩ | ⟨i, c, hfound, hsome, hsome'⟩
  · rw [hnone, hnone']
    rfl
  · have hc := Query.callAt_of_eq_some (Option.eq_some_of_filter_eq_some hfound)
    obtain ⟨rs, hrs, hitems⟩ := h.splitCommas_eq hc.args (c.opening.depth + 1)
    rw [hsome, hsome']
    simp only [h.token_eq hc.opening, ok_bind]
    rw [hrs, ok_bind, searchText_eq h hitems, ok_bind, Call.arguments]
    cases Locate.replacement? (Token.splitCommas (c.opening.depth + 1) c.args) with
    | none =>
      simp only [h.rangeText_eq hc.whole, ok_bind]
      rfl
    | some text =>
      simp only [h.spanTo_eq hc.name hc.closing, ok_bind]
      rfl

theorem convertSearches_eq (text : SqlText) : convertSearches text = lift (Locate.convert text) :=
  exhaust_eq (fun _ _ h => searchStep_eq h) (fun _ _ _ hread he => (Locate.isSwap hread he).fits) text

end Guarded

end JetAdapter
