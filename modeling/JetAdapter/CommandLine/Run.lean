import JetAdapter.CommandLine.Arguments
import JetAdapter.Provider.Format
import JetAdapter.Text.Padding

/-!
# Running commands

What a run prints and how it ends, given the contents of the configuration file and of the standard input.
-/

namespace JetAdapter.CommandLine

/-- How a run ends: with an output, with an error, or because of its arguments. -/
inductive Outcome
  | output (text : SqlText)
  | failure (message : String)
  | usage
deriving DecidableEq, Repr

namespace Outcome

/-- The exit code. -/
def code : Outcome → Nat
  | .output _ => 0
  | .failure _ => 1
  | .usage => 2

/-- The text on the standard output. -/
def stdout : Outcome → SqlText
  | .output text => text
  | _ => []

/-- The first line of a text that is printed with a line feed behind it.  A carriage return before a line
feed belongs to the end of the line. -/
def firstLine (t : SqlText) : SqlText :=
  let line := t.takeWhile (· != '\n')
  if line.getLast? = some '\r' then line.dropLast else line

end Outcome

/-- A value as it is given on the command line: a word for null or a truth value, a number, or a text
that may stand in quotes. -/
def readValue (t : SqlText) : SqlValue :=
  if t = "null".toList ∨ t = "NULL".toList then .null
  else if t = "true".toList ∨ t = "TRUE".toList then .bool true
  else if t = "false".toList ∨ t = "FALSE".toList then .bool false
  else
    match Decimal.readInt64 t with
    | some n => .int n
    | none =>
      match readDouble t with
      | some x => .float x
      | none =>
        match t with
        | '\'' :: rest => if rest.getLast? = some '\'' then .text rest.dropLast else .text t
        | _ => .text t

/-- The SQL of a request: its operand, or the input without the blanks at its end. -/
def sqlOf (sql : Option SqlText) (input : SqlText) : SqlText :=
  sql.getD (Text.trimEnd input)

/-- The line of a parameter in the list behind a command. -/
def parameterLine (p : BoundParameter) : SqlText :=
  "  ".toList ++ Provider.nameMark.toList ++ p.name ++ ' ' :: p.type.describe.toList
    ++ " = ".toList ++ p.value.inlineText ++ ['\n']

/-- The listing of a command. -/
def commandText (json : Bool) (c : Command) : SqlText :=
  if json then c.toJson.pretty ++ ['\n']
  else c.text ++ '\n' :: c.parameters.flatMap parameterLine

/-- Adapts a statement. -/
def AdaptRequest.run (r : AdaptRequest) (config : ProviderConfig) (input : SqlText) : Outcome :=
  let provider : Provider :=
    Provider.ofConfig
      { config with
        style := r.style.getD config.style
        adapter := { config.adapter with
          rules := config.adapter.rules.filter fun rule => rule ∉ r.disabled } }
  let values := r.values.map readValue
  match Statement.parse (sqlOf r.sql input) values with
  | .error e => .failure e.message
  | .ok statement =>
    match (provider.prepare .text statement (values.map SqlType.ofValue)
        (Adapter.cacheOf config.adapter)).1 with
    | .error e => .failure e.message
    | .ok command => .output (commandText r.json command)

/-- Limits a statement, which may have no parameters. -/
def LimitRequest.run (r : LimitRequest) (config : ProviderConfig) (input : SqlText) : Outcome :=
  match Statement.parse (sqlOf r.sql input) [] with
  | .error _ => .failure "the limit command does not take parameters"
  | .ok statement =>
    match statement.limit config.features (r.offset.getD 0) (.fixed (r.limit.getD 0)) with
    | .error e => .failure e.message
    | .ok limited => .output (Statement.sql limited ++ ['\n'])

/-- The line of a rule in the list of rules. -/
def ruleLine (config : ProviderConfig) (rule : Rule) : SqlText :=
  Text.padRight 20 rule.name.toList ++ ' '
    :: (if rule ∈ config.adapter.rules then "enabled\n" else "disabled\n").toList

/-- Runs a command with a configuration. -/
def Task.run (task : Task) (config : ProviderConfig) (input : SqlText) : Outcome :=
  match task with
  | .adapt request => request.run config input
  | .limit request => request.run config input
  | .listRules => .output (Rule.all.flatMap (ruleLine config))

/-- Whether a command reads the standard input. -/
def Task.needsInput : Task → Bool
  | .adapt request => request.sql.isNone
  | .limit request => request.sql.isNone
  | .listRules => false

/-- Runs a command; `file` is the content of the configuration file, if one is named and can be
read. -/
def Invocation.run (i : Invocation) (file : Option SqlText) (input : SqlText) : Outcome :=
  match i.config with
  | none => i.task.run .default input
  | some path =>
    match ProviderConfig.ofFile file with
    | .ok config => i.task.run config input
    | .error _ => .failure ("loading configuration from " ++ String.ofList path)

/-- The name and version of the program. -/
def versionText : SqlText :=
  "jet-rewrite 0.1.0\n".toList

/-- How the program is used. -/
def helpText : SqlText :=
  ("Usage: jet-rewrite [-c|--config FILE] [-v|--verbose] COMMAND\n\n"
    ++ "  rewrite [SQL] [-p|--param VALUE]... [-s|--style positional|named]\n"
    ++ "          [--disable-fix RULE]... [--json]\n"
    ++ "  limit [SQL] [--offset ROWS] -l|--limit ROWS\n"
    ++ "  fixes\n").toList

/-- How a run ends that runs no command. -/
def Stop.outcome : Stop → Outcome
  | .usage => .usage
  | .version => .output versionText
  | .help => .output helpText

end JetAdapter.CommandLine
