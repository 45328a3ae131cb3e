import JetAdapter.Dialect.Jet
import JetAdapter.Provider.Config
import JetAdapter.Provider.SqlType

/-!
# Commands

A provider adapts statements and makes commands of them that a native driver can run: the text with its
markers, and for each marker a name, a declared type and a value.
-/

namespace JetAdapter

/-- What the text of a command is. -/
inductive CommandType
  | text
  | storedProcedure
deriving DecidableEq, Repr

/-- A parameter of a command, by its name without the `@`. -/
structure BoundParameter where
  name : SqlText
  type : SqlType
  value : SqlValue
deriving DecidableEq

/-- A command for the native driver; the parameters come in the order of their markers. -/
structure Command where
  type : CommandType
  text : SqlText
  parameters : List BoundParameter
deriving DecidableEq

/-- Why there is no command. -/
inductive ProviderError
  /-- The statement was refused. -/
  | sql (e : SqlError)
  /-- A parameter has no declared type. -/
  | missingType (ordinal declared : Nat)
  /-- The native driver refused the command. -/
  | native (message : String)
deriving DecidableEq

/-- The wording of an error. -/
def ProviderError.message : ProviderError → String
  | .sql e => e.message
  | .missingType ordinal declared =>
    "No SQL type declared for parameter " ++ toString ordinal ++ " (" ++ toString declared
      ++ " types declared)"
  | .native message => "Native driver error: " ++ message

/-- An adapter with a dialect and a style of markers. -/
structure Provider where
  adapter : Adapter
  features : JetFeatures
  style : MarkerStyle
deriving DecidableEq, Repr

namespace Provider

/-- The provider of a configuration. -/
def ofConfig (c : ProviderConfig) : Provider :=
  ⟨Adapter.ofOptions c.adapter, c.features, c.style⟩

/-- What stands before the names of parameters. -/
def nameMark : String := "@"

/-- The dialect of the provider. -/
def dialect (p : Provider) : Dialect :=
  Dialect.jet p.features

/-- Gives a parameter its name and the type declared for its ordinal; a parameter without an ordinal has
the number of its place. -/
def bindParameter (types : List SqlType) (index : Nat) (p : Parameter) :
    Except ProviderError BoundParameter :=
  let ordinal := p.ordinal.getD index
  match types[ordinal]? with
  | some type => .ok ⟨'p' :: Decimal.natText ordinal, type, p.value⟩
  | none => .error (.missingType ordinal types.length)

/-- Gives parameters their names and types, from a place on. -/
def bindFrom (types : List SqlType) (index : Nat) :
    List Parameter → Except ProviderError (List BoundParameter)
  | [] => .ok []
  | p :: ps => do
    let bound ← bindParameter types index p
    return bound :: (← bindFrom types (index + 1) ps)

/-- The command of a text and its parameters. -/
def commandOf (type : CommandType) (types : List SqlType) (text : SqlText) (ps : List Parameter) :
    Except ProviderError Command :=
  (bindFrom types 0 ps).map fun bound => ⟨type, text, bound⟩

/-- Makes a command of a statement.  The text of a statement is adapted; the call of a stored procedure
stays as it is. -/
def prepare (p : Provider) (type : CommandType) (s : Statement) (types : List SqlType)
    (cache : Cache) : Except ProviderError Command × Cache :=
  match type with
  | .storedProcedure => (commandOf type types (s.text p.style) (Statement.parameters s), cache)
  | .text =>
    match p.adapter.adapt s cache with
    | (.error e, cache) => (.error (.sql e), cache)
    | (.ok adapted, cache) =>
      (commandOf type types (adapted.statement.text p.style) adapted.parameters, cache)

/-- Makes a command of a statement and hands it to a native driver. -/
def generate {α : Type} (p : Provider) (native : Command → Except String α) (type : CommandType)
    (s : Statement) (types : List SqlType) (cache : Cache) : Except ProviderError α × Cache :=
  match p.prepare type s types cache with
  | (.error e, cache) => (.error e, cache)
  | (.ok command, cache) =>
    match native command with
    | .ok made => (.ok made, cache)
    | .error message => (.error (.native message), cache)

end Provider

end JetAdapter
