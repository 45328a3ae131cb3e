import JetAdapter.Guarded.Adapter
import JetAdapter.Proofs.GuardedAggregates
import JetAdapter.Proofs.GuardedCases
import JetAdapter.Proofs.GuardedJoins
import JetAdapter.Proofs.GuardedStatements

/-!
# Runs without a breach

What is done with a text, done with numbers of tokens and with offsets, makes no step that must not be made: no token is
asked for that is not there, nothing is taken from a smaller number, and all that is cut out of the text is a stretch of
it.  So every guard is idle, and each run answers what it answers without guards (`guards_idle`).
-/

namespace JetAdapter

open Guarded (lift)

/-! ### Adapting -/

namespace Guarded

theorem applyRule_eq (r : Rule) (text : SqlText) : applyRule r text = lift (r.apply text) := by
  cases r with
  | upperLower => exact rename_eq text
  | cast => exact convertCasts_eq text
  | extract => exact convertExtracts_eq text
  | locate => exact convertSearches_eq text
  | aggregateDistinct => exact convertDistincts_eq text
  | orderByAlias => exact spellOut_eq text
  | caseWhen => exact convertCases_eq text

theorem applyChain_eq (chain : RuleChain) (text : SqlText) : applyChain chain text = lift (chain.apply text) := by
  rw [applyChain, RuleChain.apply]
  induction chain.rules generalizing text with
  | nil => rfl
  | cons r rules ih =>
    rw [List.foldlM_cons, List.foldlM_cons, applyRule_eq, lift_bind]
    exact bind_congr ih

theorem adaptText_eq (a : Adapter) (text : SqlText) : adaptText a text = lift (a.adaptText text) := by
  rw [adaptText, Adapter.adaptText, nestAll_eq, lift_bind]
  exact bind_congr (applyChain_eq a.chain)

end Guarded

/-- Whether a run with guards makes no step that must not be made, and answers what the run without guards does, where no
edit is one of a stretch that is no part of its text. -/
structure Guarded.Follows {α : Type} (x : Guarded α) (y : Except SqlError α) : Prop where
  unbroken : Unbroken x
  eq : x = lift y
  placed : Refuses SqlError.IsRefusal y

theorem Guarded.Follows.of_eq {α : Type} {x : Guarded α} {y : Except SqlError α} (heq : x = lift y)
    (hplaced : Refuses SqlError.IsRefusal y) : Follows x y :=
  ⟨heq ▸ unbroken_lift y, heq, hplaced⟩

/-! ### Statements -/

theorem Tracker.refuses_restore (t : Tracker) (text : SqlText) : Refuses SqlError.IsRefusal (t.restore text) := by
  rw [restore]
  split
  · exact .ok _
  · exact .error fun _ h => by cases h

theorem Statement.refuses_parse (text : SqlText) (values : List SqlValue) :
    Refuses SqlError.IsRefusal (parse text values) := by
  rw [parse]
  split
  · exact .ok _
  · exact .error fun _ h => by cases h

theorem refuses_limitString (text : SqlText) (offset rows : UInt64) :
    Refuses SqlError.IsRefusal (limitString text offset rows) := by
  unfold limitString limitText
  split
  · exact .error fun _ h => by cases h
  · split
    · split
      · split <;> exact .ok _
      · exact .error fun _ h => by cases h
    · exact .error fun _ h => by cases h

/-- **Runs without a breach.**  On no text does a rule, the nesting of joins or an adapter ask for a token that is not
there, take from a smaller number or cut out what is no stretch of the text; neither does putting parameters back,
binding values or limiting rows.  Each of these runs answers what is answered without guards. -/
theorem guards_idle (text : SqlText) :
    (∀ r : Rule, Guarded.Follows (Guarded.applyRule r text) (r.apply text)) ∧
    Guarded.Follows (Guarded.nestClause text) (JoinChain.nestClause text) ∧
    (∀ o : AdapterOptions,
      Guarded.Follows (Guarded.adaptText (.ofOptions o) text) ((Adapter.ofOptions o).adaptText text)) ∧
    (∀ t : Tracker, Guarded.Follows (Guarded.restore t text) (t.restore text)) ∧
    (∀ values, Guarded.Follows (Guarded.parse text values) (Statement.parse text values)) ∧
    ∀ offset rows, Guarded.Follows (Guarded.limitString text offset rows) (limitString text offset rows) :=
  ⟨fun r => .of_eq (Guarded.applyRule_eq r text) (r.refuses_apply text),
    .of_eq (Guarded.nestClause_eq text) ((JoinChain.refuses_nestClause text).mono fun _ => SqlError.IsSyntax.isRefusal),
    fun o => .of_eq (Guarded.adaptText_eq _ text) ((Adapter.ofOptions o).refuses_adaptText text),
    fun t => .of_eq (Guarded.restore_eq t text) (t.refuses_restore text),
    fun values => .of_eq (Guarded.parse_eq text values) (Statement.refuses_parse text values),
    fun offset rows => .of_eq (Guarded.limitString_eq text offset rows) (refuses_limitString text offset rows)⟩

end JetAdapter
