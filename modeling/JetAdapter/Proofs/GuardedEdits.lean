import JetAdapter.Guarded.Edit
import JetAdapter.Proofs.Tables

/-!
# Guarded edits

Edits whose stretches are stretches of the text meet no guard (`Guarded.applyAll_eq`, `Guarded.replace_eq`): the cursor
is always between two characters, and what is kept lies between it and the next edit.  So a rule that is made of edits
meets none if finding the edits does not (`Guarded.edits_eq`), and neither does a step that is repeated
(`Guarded.exhaust_eq`).
-/

namespace JetAdapter.Guarded

open Cell (spell)

variable {e : Edit} {es : List Edit} {text before rest : SqlText}

/-! ### Applying edits -/

/-- With the cursor behind the front of a text, edits go on with the rest of it. -/
theorem applyFrom_eq (h : ∀ e ∈ es, e.Fits (before ++ rest)) :
    applyFrom (before ++ rest) (Text.byteSize before) es = lift (Edit.applyFrom (Text.byteSize before) rest es) := by
  induction es generalizing before rest with
  | nil => exact cutFrom_append rfl rfl
  | cons e es ih =>
    obtain ⟨he, hes⟩ := List.forall_mem_cons.1 h
    rcases @Edit.applyFrom_cons_of_fits _ es _ _ he with ⟨hlt, heq⟩ | ⟨kept, dropped, after, rfl, hstart, hstop, heq⟩
    · rw [applyFrom, if_pos hlt, heq, lift_error]
    · have hle : ¬ e.span.start < Text.byteSize before := by
        rw [hstart, Text.byteSize_append]
        omega
      have htext : before ++ (kept ++ (dropped ++ after)) = (before ++ (kept ++ dropped)) ++ after := by
        simp only [List.append_assoc]
      have hrest := @ih (before ++ (kept ++ dropped)) after (by rwa [← htext])
      rw [applyFrom, if_neg hle, cutOut_append rfl rfl hstart, ok_bind, hstop, htext, hrest, heq, lift_map]
      cases Edit.applyFrom (Text.byteSize (before ++ (kept ++ dropped))) after es <;> rfl

/-- Edits that fit a text are applied without a breach. -/
theorem applyAll_eq (h : ∀ e ∈ es, e.Fits text) : applyAll es text = lift (Edit.applyAll es text) := by
  by_cases hes : es = []
  · subst hes
    rfl
  · rw [applyAll, if_neg hes]
    exact @applyFrom_eq _ [] text fun e he => h e ((Edit.sorted_perm es).mem_iff.1 he)

/-- A single edit that fits puts its text in the place of its stretch. -/
theorem replace_eq (h : e.Fits text) : replace e text = lift (Edit.applyAll [e] text) := by
  obtain ⟨before, dropped, after, rfl, hstart, hstop⟩ := h
  have happly : Edit.applyAll [e] (before ++ (dropped ++ after)) = .ok (before ++ e.text ++ after) := by
    rw [Edit.applyAll, Edit.sorted, List.foldr, List.foldr, Edit.insertSorted, Edit.applyFrom_cons]
    · rfl
    · rw [hstart, Nat.zero_add]
    · rw [hstop, hstart, Text.byteSize_append]
  rw [happly, replace, cutTo_append rfl hstart, ok_bind, cutOut_append rfl hstart hstop, ok_bind,
    cutFrom_append (List.append_assoc ..).symm hstop]
  rfl

/-! ### Rules -/

/-- Edits of the tokens of a text, found without a breach. -/
theorem edits_eq {F : TokenTable → Guarded (List Edit)} {f : Query → Except SqlError (List Edit)}
    (hF : ∀ T q, T.Holds q → F T = lift (f q))
    (hfits : ∀ q tail es, q.IsRead tail → f q = .ok es → ∀ e ∈ es, e.Fits (spell (Token.cells q.tokens ++ tail)))
    (text : SqlText) : (do applyAll (← F (← TokenTable.ofText text)) text)
      = lift (do Edit.applyAll (← f (← Query.ofText text)) text) := by
  rcases TokenTable.ofText_cases text with ⟨q, T, hq, hT, rfl, hholds⟩ | ⟨e, hq, hT⟩
  · rw [hT, hq, ok_bind, hF T q hholds, lift_bind, lift_ok, ok_bind, lift_bind]
    cases hes : f q with
    | error e => rfl
    | ok es =>
      obtain ⟨cells, hread⟩ := hholds.read
      refine applyAll_eq fun e he => ?_
      rw [← hread.spell]
      exact hfits q cells es hread hes e he
  · rw [hT, hq]
    rfl

/-- A step that is repeated, found without a breach each time. -/
theorem exhaust_eq {F : TokenTable → Guarded (Option Edit)} {step : Query → Except SqlError (Option Edit)}
    (hF : ∀ T q, T.Holds q → F T = lift (step q))
    (hfits : ∀ q tail e, q.IsRead tail → step q = .ok (some e) → e.Fits (spell (Token.cells q.tokens ++ tail)))
    (text : SqlText) : exhaust F text = lift (Query.exhaust step text) := by
  have hrounds : ∀ (n : Nat) (text : SqlText), repeatStep F n text = lift (Query.repeatStep step n text) := by
    intro n
    induction n with
    | zero => exact fun _ => rfl
    | succ n ih =>
      intro text
      rw [repeatStep, Query.repeatStep]
      rcases TokenTable.ofText_cases text with ⟨q, T, hq, hT, rfl, hholds⟩ | ⟨e, hq, hT⟩
      · rw [hT, hq, ok_bind, hF T q hholds, lift_bind, lift_ok, ok_bind, lift_bind]
        cases hstep : step q with
        | error e => rfl
        | ok found =>
          cases found with
          | none => rfl
          | some e =>
            obtain ⟨cells, hread⟩ := hholds.read
            have he := hfits q cells e hread hstep
            rw [hread.spell] at he
            show (replace e q.text >>= repeatStep F n)
              = lift (Edit.applyAll [e] q.text >>= Query.repeatStep step n)
            rw [replace_eq he, lift_bind]
            congr 1
            funext u
            exact ih u
      · rw [hT, hq]
        rfl
  exact hrounds _ text

end JetAdapter.Guarded
