import JetAdapter.Rule.Chain
import JetAdapter.Statement.Basic

/-!
# Arguments of the command line

The arguments are first read against the forms of the options that are known where they stand, and then
collected in their order.  Options are written `--name value`, `--name=value`, `-n value`, `-nvalue` or
`-n=value`; a value of its own does not start with a hyphen, and after `--` there are no more options.
-/

namespace JetAdapter.CommandLine

/-- An option: its name, a letter for it, and whether a value comes with it. -/
structure OptionForm where
  name : String
  letter : Option Char
  takesValue : Bool

/-- A piece of the arguments.  What is free of options may be the name of a command, so the arguments after
it are kept; operands come after `--`. -/
inductive Argument
  | flag (name : String)
  | value (name : String) (text : SqlText)
  | free (text : SqlText) (after : List SqlText)
  | operand (text : SqlText)
  | malformed

/-- Why nothing is run. -/
inductive Stop
  | usage
  | version
  | help
deriving DecidableEq, Repr

/-! ### Reading -/

/-- Whether an argument is read as options; a hyphen alone is not. -/
def isOption : SqlText → Bool
  | '-' :: _ :: _ => true
  | _ => false

/-- Reads a group of letters behind a hyphen; the last one may wait for a value. -/
def readLetters (forms : List OptionForm) : SqlText → List Argument × Option String
  | [] => ([], none)
  | c :: t =>
    match forms.find? fun f => f.letter = some c with
    | none => ([.malformed], none)
    | some f =>
      if f.takesValue then
        match t with
        | [] => ([], some f.name)
        | '=' :: value => ([.value f.name value], none)
        | value => ([.value f.name value], none)
      else
        let (arguments, waiting) := readLetters forms t
        (.flag f.name :: arguments, waiting)

/-- Reads a name behind two hyphens; it may wait for a value. -/
def readName (forms : List OptionForm) (t : SqlText) : List Argument × Option String :=
  let name := t.takeWhile (· != '=')
  match forms.find? fun f => f.name.toList == name with
  | none => ([.malformed], none)
  | some f =>
    match t.dropWhile (· != '='), f.takesValue with
    | [], true => ([], some f.name)
    | [], false => ([.flag f.name], none)
    | _ :: value, true => ([.value f.name value], none)
    | _ :: _, false => ([.malformed], none)

/-- Reads an argument that is one or more options. -/
def readOptions (forms : List OptionForm) : SqlText → List Argument × Option String
  | '-' :: '-' :: t => readName forms t
  | '-' :: t => readLetters forms t
  | _ => ([.malformed], none)

/-- Reads arguments against the forms of the known options. -/
def readArguments (forms : List OptionForm) : List SqlText → List Argument
  | [] => []
  | arg :: rest =>
    if arg = ['-', '-'] then rest.map .operand
    else if isOption arg then
      match readOptions forms arg, rest with
      | (arguments, none), rest => arguments ++ readArguments forms rest
      | (arguments, some _), [] => arguments ++ [.malformed]
      | (arguments, some name), value :: rest =>
        if isOption value then arguments ++ [.malformed]
        else arguments ++ .value name value :: readArguments forms rest
    else .free arg rest :: readArguments forms rest

/-! ### Commands -/

/-- What the command that adapts a statement is asked for. -/
structure AdaptRequest where
  sql : Option SqlText
  values : List SqlText
  style : Option MarkerStyle
  disabled : List Rule
  json : Bool

/-- What the command that limits a statement is asked for. -/
structure LimitRequest where
  sql : Option SqlText
  offset : Option UInt64
  limit : Option UInt64

/-- A command. -/
inductive Task
  | adapt (request : AdaptRequest)
  | limit (request : LimitRequest)
  | listRules

/-- A command, and the file with the configuration. -/
structure Invocation where
  config : Option SqlText
  task : Task

/-- The text of the only operand of a command. -/
def setSql (sql : Option SqlText) (t : SqlText) : Except Stop (Option SqlText) :=
  if sql.isSome then .error .usage else .ok (some t)

/-- Sets what may be set once, to a value that has to be there. -/
def setOnce {α : Type} (old new : Option α) : Except Stop (Option α) :=
  if old.isSome ∨ new.isNone then .error .usage else .ok new

/-- Reads a number of rows. -/
def readRows (t : SqlText) : Option UInt64 :=
  (Decimal.readCount UInt64.size t).map UInt64.ofNat

/-- Reads a style of markers. -/
def readStyle (t : SqlText) : Option MarkerStyle :=
  if t = "positional".toList then some .positional
  else if t = "named".toList then some .named
  else none

/-- The option that asks for help. -/
def helpForm : OptionForm :=
  ⟨"help", some 'h', false⟩

/-- The options of the command that adapts a statement. -/
def adaptForms : List OptionForm :=
  [⟨"param", some 'p', true⟩, ⟨"style", some 's', true⟩, ⟨"disable-fix", none, true⟩,
   ⟨"json", none, false⟩, helpForm]

/-- Takes an argument into a request. -/
def AdaptRequest.add (r : AdaptRequest) : Argument → Except Stop AdaptRequest
  | .free t _ | .operand t => do return { r with sql := ← setSql r.sql t }
  | .value "param" t => return { r with values := r.values ++ [t] }
  | .value "style" t => do return { r with style := ← setOnce r.style (readStyle t) }
  | .value "disable-fix" t =>
    match Rule.ofText? t with
    | some rule => return { r with disabled := r.disabled ++ [rule] }
    | none => .error .usage
  | .flag "json" => if r.json then .error .usage else return { r with json := true }
  | .flag "help" => .error .help
  | _ => .error .usage

/-- The options of the command that limits a statement. -/
def limitForms : List OptionForm :=
  [⟨"offset", none, true⟩, ⟨"limit", some 'l', true⟩, helpForm]

/-- Takes an argument into a request. -/
def LimitRequest.add (r : LimitRequest) : Argument → Except Stop LimitRequest
  | .free t _ | .operand t => do return { r with sql := ← setSql r.sql t }
  | .value "offset" t => do return { r with offset := ← setOnce r.offset (readRows t) }
  | .value "limit" t => do return { r with limit := ← setOnce r.limit (readRows t) }
  | .flag "help" => .error .help
  | _ => .error .usage

/-- The names of the commands. -/
def commandNames : List String :=
  ["rewrite", "limit", "fixes", "help"]

/-- What follows from the arguments of the command that helps: they are nothing or the name of one
command, and whatever else they hold, options too, is no command. -/
def helpStop : List SqlText → Stop
  | [] => .help
  | [name] => if commandNames.any (·.toList == name) then .help else .usage
  | _ => .usage

/-- The command with a name and the arguments after it. -/
def readTask (name : SqlText) (args : List SqlText) : Except Stop Task := do
  if name = "rewrite".toList then
    return .adapt (← (readArguments adaptForms args).foldlM AdaptRequest.add
      ⟨none, [], none, [], false⟩)
  else if name = "limit".toList then
    let request ← (readArguments limitForms args).foldlM LimitRequest.add ⟨none, none, none⟩
    if request.limit.isNone then .error .usage else return .limit request
  else if name = "fixes".toList then
    match readArguments [helpForm] args with
    | [] => return .listRules
    | .flag "help" :: _ => .error .help
    | _ => .error .usage
  else if name = "help".toList then .error (helpStop args)
  else .error .usage

/-- The options before a command. -/
def mainForms : List OptionForm :=
  [⟨"config", some 'c', true⟩, ⟨"verbose", some 'v', false⟩, ⟨"version", some 'V', false⟩, helpForm]

/-- Collects the options up to the name of the command, and reads the command. -/
def collect (fallback config : Option SqlText) (verbose : Bool) :
    List Argument → Except Stop Invocation
  | .value "config" path :: rest =>
    if path = [] ∨ config.isSome then .error .usage else collect fallback (some path) verbose rest
  | .flag "verbose" :: rest =>
    if verbose then .error .usage else collect fallback config true rest
  | .flag "version" :: _ => .error .version
  | .flag "help" :: _ => .error .help
  | .free name after :: _ => do
    let task ← readTask name after
    if config.isNone ∧ fallback = some [] then .error .usage
    else return ⟨config <|> fallback, task⟩
  | _ => .error .usage

/-- Reads the arguments of a run; a configuration that is not named there may be named by the
environment. -/
def readInvocation (configVariable : Option SqlText) (args : List SqlText) :
    Except Stop Invocation :=
  collect configVariable none false (readArguments mainForms args)

end JetAdapter.CommandLine
