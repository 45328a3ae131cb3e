import JetAdapter.Text.Letter
import JetAdapter.Text.Quoted
import JetAdapter.Decimal.Numeral
import JetAdapter.Decimal.Layout
import JetAdapter.Token.Lexeme
import JetAdapter.Statement.Basic
import JetAdapter.Query.Edit
import JetAdapter.Query.Scope
import JetAdapter.Join.Nesting
import JetAdapter.Rule.Chain
import JetAdapter.Adapter
import JetAdapter.Json.Printer
import JetAdapter.Json.Reader
import JetAdapter.Provider.Format
import JetAdapter.Main
import JetAdapter.Proofs.Transparency
import JetAdapter.Proofs.Linearization
import JetAdapter.Proofs.Commands
import JetAdapter.Proofs.AliasSwaps
import JetAdapter.Proofs.CallSwaps
import JetAdapter.Proofs.CaseSwaps
import JetAdapter.Proofs.DistinctSwaps
import JetAdapter.Proofs.JoinSwaps
import JetAdapter.Proofs.Literals
import JetAdapter.Proofs.Entries
import JetAdapter.Proofs.Sharing
import JetAdapter.Proofs.Partition
import JetAdapter.Proofs.Rerunning
import JetAdapter.Proofs.Levels
import JetAdapter.Proofs.Spacing
import JetAdapter.Proofs.EditSets
import JetAdapter.Proofs.Splices
import JetAdapter.Proofs.Layouts
import JetAdapter.Proofs.Twins
import JetAdapter.Proofs.Neat
import JetAdapter.Proofs.TwinCalls
import JetAdapter.Proofs.TwinCases
import JetAdapter.Proofs.TwinJoins
import JetAdapter.Proofs.TwinScopes
import JetAdapter.Proofs.TwinAliases
import JetAdapter.Proofs.LayoutIndependence
import JetAdapter.Proofs.Spellings
import JetAdapter.Proofs.Quoting
import JetAdapter.Proofs.JoinNesting
import JetAdapter.Proofs.Placement
import JetAdapter.Proofs.ClauseByClause
import JetAdapter.Proofs.Renesting
import JetAdapter.Proofs.NestedSearches
import JetAdapter.Proofs.NestedConditionals
import JetAdapter.Proofs.Conditionals
import JetAdapter.Proofs.NestedAggregates
import JetAdapter.Proofs.Passes
import JetAdapter.Proofs.Idempotence
import JetAdapter.Proofs.NestedOrderings
import JetAdapter.Proofs.ForeignNames
import JetAdapter.Proofs.CanonicalNames
import JetAdapter.Proofs.Rebinding
import JetAdapter.Proofs.BlindToValues
import JetAdapter.Proofs.Splitting
import JetAdapter.Proofs.Limits
import JetAdapter.Proofs.TopWords
import JetAdapter.Proofs.TopReadings
import JetAdapter.Proofs.Inlining
import JetAdapter.Proofs.FunctionForms
import JetAdapter.Proofs.RuleChains
import JetAdapter.Proofs.Configurations
import JetAdapter.Proofs.UntaggedValues
import JetAdapter.Proofs.Partners
import JetAdapter.Proofs.QueryTrees
import JetAdapter.Proofs.Unbroken
