import JetAdapter.Rule.Cast
import JetAdapter.Rule.Conditional
import JetAdapter.Rule.Distinct
import JetAdapter.Rule.Extract
import JetAdapter.Rule.LetterCase
import JetAdapter.Rule.Locate
import JetAdapter.Rule.OrderAlias

/-!
# Rules and chains of rules

A rule replaces one construct that Jet cannot read.  A chain is a set of rules: they are applied in the
order of `Rule.all`, whatever the order in which they were enabled.
-/

namespace JetAdapter

/-- A construct that is replaced, in the order of application. -/
inductive Rule
  | upperLower
  | cast
  | extract
  | locate
  | aggregateDistinct
  | orderByAlias
  | caseWhen
deriving DecidableEq, Repr

namespace Rule

/-- Every rule, in the order of application. -/
def all : List Rule :=
  [.upperLower, .cast, .extract, .locate, .aggregateDistinct, .orderByAlias, .caseWhen]

/-- The name of a rule in configurations. -/
def name : Rule → String
  | .upperLower => "upper_lower"
  | .cast => "cast"
  | .extract => "extract"
  | .locate => "locate"
  | .aggregateDistinct => "aggregate_distinct"
  | .orderByAlias => "order_by_alias"
  | .caseWhen => "case_when"

/-- The rule with exactly this name. -/
def ofName? (name : SqlText) : Option Rule :=
  all.find? fun r => r.name.toList == name

/-- The rule that a user names: blanks around the name and the case of its letters do not matter, and a
hyphen is as good as an underscore. -/
def ofText? (t : SqlText) : Option Rule :=
  ofName? ((Text.lower (Text.trim t)).map fun c => if c = '-' then '_' else c)

/-- The wording of the error that a name stands for no rule. -/
def unknownMessage (name : SqlText) : String :=
  "Unknown fix rule '" ++ String.ofList name ++ "'"

/-- Applies a rule to a text. -/
def apply : Rule → SqlText → Except SqlError SqlText
  | .upperLower => LetterCase.rename
  | .cast => Cast.convert
  | .extract => Extract.convert
  | .locate => Locate.convert
  | .aggregateDistinct => Distinct.convert
  | .orderByAlias => OrderAlias.spellOut
  | .caseWhen => Conditional.convert

theorem mem_all (r : Rule) : r ∈ all := by
  cases r <;> decide

end Rule

/-- A set of enabled rules, listed in the order of application. -/
structure RuleChain where
  rules : List Rule
deriving DecidableEq, Repr

namespace RuleChain

/-- The chain of the rules in a list; their order and repetitions do not matter. -/
def ofList (rules : List Rule) : RuleChain :=
  ⟨Rule.all.filter (· ∈ rules)⟩

/-- The chain of every rule. -/
def all : RuleChain :=
  ⟨Rule.all⟩

/-- The chain without rules. -/
def none : RuleChain :=
  ⟨[]⟩

/-- The chain with one more rule. -/
def enable (r : Rule) (chain : RuleChain) : RuleChain :=
  ofList (r :: chain.rules)

/-- The chain without a rule. -/
def disable (r : Rule) (chain : RuleChain) : RuleChain :=
  ⟨chain.rules.filter (· ≠ r)⟩

/-- Whether a rule is enabled. -/
def isEnabled (r : Rule) (chain : RuleChain) : Bool :=
  r ∈ chain.rules

/-- Applies the enabled rules one after the other, up to the first error. -/
def apply (chain : RuleChain) (text : SqlText) : Except SqlError SqlText :=
  chain.rules.foldlM (fun t r => r.apply t) text

theorem mem_ofList {r : Rule} {rules : List Rule} : r ∈ (ofList rules).rules ↔ r ∈ rules := by
  simp [ofList, Rule.mem_all]

end RuleChain

end JetAdapter
