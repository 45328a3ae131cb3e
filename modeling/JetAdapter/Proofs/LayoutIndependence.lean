import JetAdapter.Adapter
import JetAdapter.Proofs.Session
import JetAdapter.Proofs.TwinAliases
import JetAdapter.Proofs.TwinCalls
import JetAdapter.Proofs.TwinCases
import JetAdapter.Proofs.TwinJoins
import JetAdapter.Proofs.TwinScopes

/-!
# Layouts do not matter

Spaced texts that differ in blanks and comments only are adapted to texts that differ in blanks and comments only,
or refused for the same reason (`adaptText_alike`).  Every stage makes twins of twins; the rules after the table of
distinct values may bring a comma before a `UNION`, which those up to it need apart.

Texts that are not spaced are not adapted alike: in `order by [x]desc` the expression that `x` stands for is
written right before the direction, and in `order by [x] desc` it is not.
-/

namespace JetAdapter

/-! ### Stages -/

theorem Kind.touches_true {j k : Kind} (h : j.touches false k = true) : j.touches true k = true := by
  cases k with
  | symbol s => exact h
  | _ =>
    cases j with
    | symbol s =>
      cases s with
      | comma => rfl
      | _ => exact h
    | _ => exact h

theorem Cell.IsSpaced.toTrue {cs : List Cell} (h : IsSpaced false cs) : IsSpaced true cs := by
  refine List.IsChain.imp (fun c d hcd => ?_) h
  cases c with
  | gap g =>
    cases d with
    | gap g' => exact hcd
    | token k w => exact hcd
  | token k w =>
    cases d with
    | gap g => exact hcd
    | token k' w' => exact Kind.touches_true hcd

/-- Texts that are spaced well enough before a table of distinct values is made are so behind it. -/
theorem Text.Twins.toTrue {s s' : SqlText} (h : Twins false s s') : Twins true s s' :=
  ⟨h.tokens, h.spaced.toTrue, h.spaced'.toTrue⟩

namespace Rule

variable {rules : List Rule} {s s' : SqlText}

/-- The rules up to the one that makes tables of distinct values. -/
def early : List Rule :=
  [.upperLower, .cast, .extract, .locate, .aggregateDistinct]

/-- The rules after it. -/
def late : List Rule :=
  [.orderByAlias, .caseWhen]

theorem twins_early {r : Rule} (hr : r ∈ early) (h : Text.Twins false s s') :
    Except.Alike (Text.Twins false) (r.apply s) (r.apply s') := by
  cases r with
  | upperLower => exact LetterCase.twins h
  | cast => exact Cast.twins h
  | extract => exact Extract.twins h
  | locate => exact Locate.twins h
  | aggregateDistinct => exact Distinct.twins h
  | orderByAlias => simp [early] at hr
  | caseWhen => simp [early] at hr

theorem twins_all_early (hrules : ∀ r ∈ rules, r ∈ early) (h : Text.Twins false s s') :
    Except.Alike (Text.Twins false) (rules.foldlM (fun t r => r.apply t) s)
      (rules.foldlM (fun t r => r.apply t) s') := by
  induction rules generalizing s s' with
  | nil => exact .ok h
  | cons r rules ih =>
    obtain ⟨hr, hrules⟩ := List.forall_mem_cons.1 hrules
    rw [List.foldlM_cons, List.foldlM_cons]
    exact (twins_early hr h).bind fun t t' ht => ih hrules ht

theorem twins_all_late (h : Text.Twins true s s')
    (names : .orderByAlias ∈ rules → ∀ q, Query.ofText s = .ok q → OrderAlias.NamesApart q)
    (names' : .orderByAlias ∈ rules → ∀ q, Query.ofText s' = .ok q → OrderAlias.NamesApart q) :
    Except.Alike (Text.Twins true) ((late.filter (· ∈ rules)).foldlM (fun t r => r.apply t) s)
      ((late.filter (· ∈ rules)).foldlM (fun t r => r.apply t) s') := by
  have hlast : ∀ {t t' : SqlText}, Text.Twins true t t' →
      Except.Alike (Text.Twins true) (([Rule.caseWhen].filter (· ∈ rules)).foldlM (fun t r => r.apply t) t)
        (([Rule.caseWhen].filter (· ∈ rules)).foldlM (fun t r => r.apply t) t') := by
    intro t t' ht
    by_cases hr : Rule.caseWhen ∈ rules
    · rw [List.filter_cons_of_pos (by simpa using hr), List.filter_nil, List.foldlM_cons, List.foldlM_cons]
      exact (Conditional.twins ht).bind fun u u' hu => .ok hu
    · rw [List.filter_cons_of_neg (by simpa using hr)]
      exact .ok ht
  rw [late]
  by_cases hr : Rule.orderByAlias ∈ rules
  · rw [List.filter_cons_of_pos (by simpa using hr), List.foldlM_cons, List.foldlM_cons]
    exact (OrderAlias.twins h (names hr) (names' hr)).bind fun t t' ht => hlast ht
  · rw [List.filter_cons_of_neg (by simpa using hr)]
    exact hlast h

end Rule

namespace Adapter

variable {a : Adapter} {o : AdapterOptions} {s s' : SqlText}

/-- The text with nested joins after the early rules, in which the names of orderings are looked up. -/
def orderedText (a : Adapter) (s : SqlText) : Except SqlError SqlText := do
  (a.chain.rules.filter (· ∈ Rule.early)).foldlM (fun t r => r.apply t) (← JoinChain.nestAll (a.withoutMarker s))

/-- Whether no item has what its expression of several tokens spells as its alias where the names of orderings are
looked up. -/
def NamesApart (a : Adapter) (s : SqlText) : Prop :=
  .orderByAlias ∈ a.chain.rules → ∀ q, (a.orderedText s >>= Query.ofText) = .ok q → OrderAlias.NamesApart q

instance (a : Adapter) (s : SqlText) : Decidable (a.NamesApart s) :=
  match h : a.orderedText s >>= Query.ofText with
  | .ok q => decidable_of_iff (.orderByAlias ∈ a.chain.rules → OrderAlias.NamesApart q) (by simp [NamesApart, h])
  | .error _ => isTrue (by simp [NamesApart, h])

/-- The rules of an adapter are the early ones and then the late ones among them. -/
theorem rules_ofOptions (o : AdapterOptions) :
    (ofOptions o).chain.rules = (ofOptions o).chain.rules.filter (· ∈ Rule.early)
      ++ Rule.late.filter (· ∈ (ofOptions o).chain.rules) := by
  have hmem : ∀ r, r ∈ (ofOptions o).chain.rules ↔ r ∈ o.rules := fun r => RuleChain.mem_ofList
  have hlate : (Rule.late.filter fun r => decide (r ∈ Rule.early) && decide (r ∈ o.rules)) = [] := by
    simp [Rule.late, Rule.early]
  have hall : Rule.all = Rule.early ++ Rule.late := rfl
  simp only [hmem]
  show Rule.all.filter (· ∈ o.rules) = (Rule.all.filter (· ∈ o.rules)).filter (· ∈ Rule.early) ++ _
  rw [List.filter_filter, hall, List.filter_append, List.filter_append, hlate, List.append_nil]
  rfl

theorem adaptText_eq (o : AdapterOptions) (s : SqlText) :
    (ofOptions o).adaptText s = ((ofOptions o).orderedText s >>= fun t =>
      (Rule.late.filter (· ∈ (ofOptions o).chain.rules)).foldlM (fun t r => r.apply t) t) := by
  rw [adaptText, orderedText, bind_assoc]
  congr 1
  funext t
  rw [RuleChain.apply, ← List.foldlM_append, ← rules_ofOptions]

theorem orderedText_alike (marker : a.endMarker = none) (h : Text.Twins false s s') :
    Except.Alike (Text.Twins false) (a.orderedText s) (a.orderedText s') := by
  unfold orderedText withoutMarker
  rw [marker]
  exact (JoinChain.twins h).bind fun t t' ht => Rule.twins_all_early (fun r hr => by simpa using (List.mem_filter.1 hr).2) ht

end Adapter

/-! ### Adapted texts -/

/-- Spaced texts that differ in their layout only are adapted to such texts, or refused for the same reason. -/
theorem adaptText_alike (o : AdapterOptions) (s s' : SqlText) (marker : (Adapter.ofOptions o).endMarker = none)
    (tokens : Text.SameTokens s s') (spaced : Text.IsSpaced false s) (spaced' : Text.IsSpaced false s')
    (names : (Adapter.ofOptions o).NamesApart s) (names' : (Adapter.ofOptions o).NamesApart s') :
    Except.Alike Text.SameTokens ((Adapter.ofOptions o).adaptText s) ((Adapter.ofOptions o).adaptText s') := by
  have hordered := Adapter.orderedText_alike marker ⟨tokens, spaced, spaced'⟩
  rw [Adapter.adaptText_eq, Adapter.adaptText_eq]
  unfold Adapter.NamesApart at names names'
  generalize (Adapter.ofOptions o).orderedText s = x at hordered names
  generalize (Adapter.ofOptions o).orderedText s' = y at hordered names'
  cases hordered with
  | error outline => exact .error outline
  | ok ht => exact (Rule.twins_all_late ht.toTrue names names').mono fun u u' hu => hu.tokens

/-- A name in the ordering may be an alias of a call that is renamed. -/
example : (Adapter.ofOptions .default).adaptText "select upper(a) as x from t order by x".toList
    = .ok "select ucase(a) as x from t order by ucase(a)".toList := by
  decide +kernel

/-- A statement on one line and on several ones. -/
theorem adaptText_alike_broken_lines :
    Except.Alike Text.SameTokens
      ((Adapter.ofOptions .default).adaptText
        "select upper(a) as x from t1 join t2 on b=c join t3 on d=e order by x".toList)
      ((Adapter.ofOptions .default).adaptText
        "select upper( a ) as x\n  from t1 join t2 on b = c join t3 on d = e -- joined\n  order by x".toList) :=
  adaptText_alike .default _ _ rfl (by decide +kernel) (by decide +kernel) (by decide +kernel) (by decide +kernel)
    (by decide +kernel)

/-- Behind a name in brackets there may be no blank before the direction, and then there is none behind the
expression. -/
theorem not_adaptText_alike :
    ¬ ∀ (o : AdapterOptions) (s s' : SqlText), (Adapter.ofOptions o).endMarker = none → Text.SameTokens s s' →
      Except.Alike Text.SameTokens ((Adapter.ofOptions o).adaptText s) ((Adapter.ofOptions o).adaptText s') := by
  intro h
  have halike := h .default "select a as x from t order by [x] desc".toList
    "select a as x from t order by [x]desc".toList rfl (by decide +kernel)
  have hspaced : (Adapter.ofOptions .default).adaptText "select a as x from t order by [x] desc".toList
      = .ok "select a as x from t order by a desc".toList := by decide +kernel
  have hglued : (Adapter.ofOptions .default).adaptText "select a as x from t order by [x]desc".toList
      = .ok "select a as x from t order by adesc".toList := by decide +kernel
  rw [hspaced, hglued] at halike
  cases halike with
  | ok tokens => exact absurd tokens (by decide +kernel)

end JetAdapter
