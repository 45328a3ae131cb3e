import JetAdapter.Json.Printer
import JetAdapter.Json.Reader
import JetAdapter.Provider.Command

/-!
# JSON of configurations, types, values and commands

Every writer here has a reader beside it where JSON is read.  Records are written with all fields; when one
is read, fields may be missing where there is a default, other fields do not matter, and repeated fields
are refused.
-/

namespace JetAdapter

/-! ### Values -/

/-- A value without a tag: blobs are arrays of numbers. -/
def SqlValue.toJson : SqlValue → Json
  | .null => .null
  | .bool b => .bool b
  | .int n => Json.ofInt n.toInt
  | .float x => Json.ofFloat x
  | .text s => Json.ofText s
  | .blob bytes => .array (bytes.map fun b => Json.ofInt b.toNat)

/-- Reads a value without a tag: the first sort of value that fits. -/
def SqlValue.ofJson? : Json → Option SqlValue
  | .null => some .null
  | .bool b => some (.bool b)
  | .number negative numeral =>
    match Json.number? negative numeral with
    | some (.integer n) =>
      if n < Decimal.int64Count then some (.int (Int64.ofInt n)) else some (.float n.toNat.toUInt64.toFloat)
    | some (.real x) => some (.float x)
    | none => none
  | .string content => content.map .text
  | .array items => (items.mapM fun j => (Json.nat? 256 j).map UInt8.ofNat).map .blob
  | .object _ => none

/-! ### Choices -/

/-- The member of a list of named things that a choice without anything else names. -/
def Json.named? {α : Type} (table : List (α × String)) (j : Json) : Option α := do
  let (name, rest) ← j.choice?
  let (a, _) ← table.find? fun (_, known) => known.toList == name
  if isNothing rest then some a else none

/-- The name of a style of markers. -/
def MarkerStyle.name : MarkerStyle → String
  | .positional => "positional"
  | .named => "named"

/-- Reads a style of markers. -/
def MarkerStyle.ofJson? : Json → Option MarkerStyle :=
  Json.named? [(.positional, "positional"), (.named, "named")]

/-- The name of a type of command. -/
def CommandType.name : CommandType → String
  | .text => "text"
  | .storedProcedure => "stored_procedure"

/-- Reads a type of command. -/
def CommandType.ofJson? : Json → Option CommandType :=
  Json.named? [(.text, "text"), (.storedProcedure, "stored_procedure")]

/-- Reads a rule by its exact name. -/
def Rule.ofJson? : Json → Option Rule :=
  Json.named? (Rule.all.map fun r => (r, r.name))

/-! ### Types -/

/-- A type: a name, or a name with a record. -/
def SqlType.toJson : SqlType → Json
  | .decimal precision scale =>
    .ofMembers [("decimal", .ofMembers
      [("precision", .ofInt precision.toNat), ("scale", .ofInt scale.toNat)])]
  | .text length =>
    .ofMembers [("text", .ofMembers
      [("length", (length.map fun n => Json.ofInt n.toNat).getD .null)])]
  | type => .ofString ((SqlType.named.lookup type).getD "")

/-- Reads the record of a decimal type. -/
def SqlType.decimalOfJson? (j : Json) : Option SqlType := do
  let [some precision, some scale] ← j.fields? ["precision", "scale"] | none
  return .decimal (UInt8.ofNat (← precision.nat? 256)) (UInt8.ofNat (← scale.nat? 256))

/-- Reads the record of a text type.  The length may only be missing where it would be named. -/
def SqlType.textOfJson? (j : Json) : Option SqlType := do
  let [length] ← j.fields? ["length"] | none
  match j, length with
  | .array _, none => none
  | _, length =>
    let n ← Json.fieldOr none (Json.nullable? (Json.nat? UInt32.size)) length
    return .text (n.map UInt32.ofNat)

/-- Reads a type. -/
def SqlType.ofJson? (j : Json) : Option SqlType := do
  let (name, rest) ← j.choice?
  if name = "decimal".toList then SqlType.decimalOfJson? (← rest)
  else if name = "text".toList then SqlType.textOfJson? (← rest)
  else j.named? SqlType.named

/-! ### Configurations -/

/-- The options of an adapter. -/
def AdapterOptions.toJson (o : AdapterOptions) : Json :=
  .ofMembers
    [("fixes", .array (o.rules.map fun r => .ofString r.name)),
     ("cache_max_entries", (o.cacheLimit.map fun n => Json.ofInt n.toNat).getD .null),
     ("end_join_marker", (o.endMarker.map Json.ofText).getD .null)]

/-- Reads the options of an adapter. -/
def AdapterOptions.ofJson? (j : Json) : Option AdapterOptions := do
  let [rules, limit, marker] ←
    j.fields? ["fixes", "cache_max_entries", "end_join_marker"] | none
  let rules ← Json.fieldOr Rule.all (fun j => do (← j.items?).mapM Rule.ofJson?) rules
  let limit ← Json.fieldOr none (Json.nullable? (Json.nat? UInt64.size)) limit
  let marker ← Json.fieldOr none (Json.nullable? Json.text?) marker
  return ⟨rules, limit.map UInt64.ofNat, marker⟩

/-- The features of a dialect. -/
def JetFeatures.toJson (f : JetFeatures) : Json :=
  .ofMembers
    [("extended_functions", .bool f.extendedFunctions),
     ("trim_emulation", .bool f.trimFunctions),
     ("variable_limit", .bool f.variableLimit)]

/-- Reads the features of a dialect. -/
def JetFeatures.ofJson? (j : Json) : Option JetFeatures := do
  let [extended, trim, boundLimit] ←
    j.fields? ["extended_functions", "trim_emulation", "variable_limit"] | none
  return ⟨← Json.fieldOr true Json.bool? extended, ← Json.fieldOr true Json.bool? trim,
    ← Json.fieldOr false Json.bool? boundLimit⟩

/-- A configuration. -/
def ProviderConfig.toJson (c : ProviderConfig) : Json :=
  .ofMembers
    [("rewrite", c.adapter.toJson), ("dialect", c.features.toJson),
     ("parameter_style", .ofString c.style.name)]

/-- Reads a configuration. -/
def ProviderConfig.ofJson? (j : Json) : Option ProviderConfig := do
  let [adapter, features, style] ← j.fields? ["rewrite", "dialect", "parameter_style"] | none
  return ⟨← Json.fieldOr .default AdapterOptions.ofJson? adapter,
    ← Json.fieldOr .default JetFeatures.ofJson? features,
    ← Json.fieldOr .named MarkerStyle.ofJson? style⟩

/-- Reads the text of a configuration. -/
def ProviderConfig.read? (t : SqlText) : Option ProviderConfig := do
  ProviderConfig.ofJson? (← Json.read? t)

/-- Why there is no configuration. -/
inductive ConfigError
  | unreadable
  | malformed
deriving DecidableEq, Repr

/-- Reads the configuration in a file, by its content if it could be read. -/
def ProviderConfig.ofFile (content : Option SqlText) : Except ConfigError ProviderConfig :=
  match content with
  | none => .error .unreadable
  | some t =>
    match ProviderConfig.read? t with
    | some c => .ok c
    | none => .error .malformed

/-! ### Commands -/

/-- A command with its parameters. -/
def Command.toJson (c : Command) : Json :=
  .ofMembers
    [("command_type", .ofString c.type.name), ("text", .ofText c.text),
     ("parameters", .array (c.parameters.map fun p => .ofMembers
       [("name", .ofText p.name), ("sql_type", p.type.toJson), ("value", p.value.toJson)]))]

end JetAdapter
