import JetAdapter.Adapter
import JetAdapter.Dialect.Basic

/-!
# Configurations
-/

namespace JetAdapter

/-- What can be chosen about a provider. -/
structure ProviderConfig where
  adapter : AdapterOptions
  features : JetFeatures
  style : MarkerStyle
deriving DecidableEq, Repr

/-- The defaults of all parts, with named markers. -/
def ProviderConfig.default : ProviderConfig :=
  ⟨.default, .default, .named⟩

end JetAdapter
