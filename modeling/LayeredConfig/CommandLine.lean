import LayeredConfig.Action

/-!
# The command line

A command line names an action and its arguments.  Options stand anywhere among
the arguments of their command, in a long form or as a letter; the value of an
option is attached to it or is the next argument.  After a double dash every
argument is taken as it is.  The option for the configuration file may stand
before or after the name of the action.

The value of an option or argument is held back until the next one comes or the
command ends; only then it is judged.
-/

namespace LayeredConfig.CommandLine

/-- Why a command line is no request.  Asking for help is one of the reasons. -/
inductive UsageError where
  | unknownArgument
  | missingArgument
  | invalidSubcommand
  | argumentConflict
  | invalidValue
  | tooManyValues
  | displayHelp
  | displayVersion
deriving DecidableEq, Inhabited

/-- What a value must be.  A path is not empty. -/
inductive ValueKind where
  | text
  | path
deriving DecidableEq, Inhabited

inductive Effect where
  | take (kind : ValueKind)
  | switch
  | help
  | version
deriving DecidableEq, Inhabited

structure OptionSpec where
  long : String
  letter : Option Char
  effect : Effect
deriving DecidableEq, Inhabited

/-- A command: its options, its argument, and the commands below it. -/
structure CommandSpec where
  options : List OptionSpec
  argument : Option (String × ValueKind) := none
  subcommands : List String := []
deriving DecidableEq, Inhabited

def fileOption : OptionSpec := ⟨"file", some 'f', .take .path⟩

def helpOption : OptionSpec := ⟨"help", some 'h', .help⟩

/-- The command without the name of an action. -/
def root : CommandSpec where
  options := [fileOption, helpOption, ⟨"version", some 'V', .version⟩]
  subcommands := ["show", "get", "env", "gen", "help"]

def command (name : String) : CommandSpec :=
  match name with
  | "show" => { options := [fileOption, helpOption, ⟨"json", none, .switch⟩] }
  | "get" => { options := [fileOption, helpOption], argument := some ("key", .text) }
  | "gen" =>
    { options := [fileOption, helpOption, ⟨"output", some 'o', .take .path⟩,
        ⟨"runtime", none, .take .text⟩]
      argument := some ("schema", .path) }
  | _ => { options := [fileOption, helpOption] }

/-- A value that is held back; an option waits for its value at first. -/
structure Pending where
  name : String
  kind : ValueKind
  value : Option String
deriving DecidableEq, Inhabited

/-- The values given so far, and the one held back. -/
structure Given where
  values : List (String × String) := []
  pending : Option Pending := none
deriving DecidableEq, Inhabited

namespace Given

def value? (given : Given) (name : String) : Option String :=
  (given.values.find? fun entry => entry.1 = name).map (·.2)

def mentions (given : Given) (name : String) : Bool :=
  (given.value? name).isSome || given.pending.any fun p => p.name = name

def waits (given : Given) : Bool :=
  given.pending.any fun p => p.value.isNone

/-- Adds a value.  No name has two, and a path is not empty. -/
def add (given : Given) (name : String) (kind : ValueKind) (value : String) :
    Except UsageError Given :=
  if (given.value? name).isSome then .error .argumentConflict
  else if kind = .path && value = "" then .error .invalidValue
  else .ok { given with values := given.values ++ [(name, value)] }

def settle (given : Given) : Except UsageError Given :=
  match given.pending with
  | none => .ok given
  | some ⟨_, _, none⟩ => .error .invalidValue
  | some ⟨name, kind, some value⟩ => { given with pending := none }.add name kind value

def hold (given : Given) (pending : Pending) : Given :=
  { given with pending := some pending }

def supply (given : Given) (value : String) : Given :=
  { given with pending := given.pending.map fun p => { p with value := some value } }

def apply (given : Given) (option : OptionSpec) (attached : Option String) :
    Except UsageError Given :=
  match option.effect, attached with
  | .take kind, some value => do (← given.settle).add option.long kind value
  | .take kind, none => do .ok ((← given.settle).hold ⟨option.long, kind, none⟩)
  | _, some _ => .error .tooManyValues
  | .switch, none => do (← given.settle).add option.long .text "true"
  | .help, none => do
    let _ ← given.settle
    .error .displayHelp
  | .version, none => do
    let _ ← given.settle
    .error .displayVersion

end Given

/-- The text before the first `=` and the one after it, if there is one. -/
def splitAttached (text : List Char) : String × Option String :=
  match Text.splitOnce? '=' text with
  | some (name, value) => (String.ofList name, some (String.ofList value))
  | none => (String.ofList text, none)

def applyLong (spec : CommandSpec) (given : Given) (text : List Char) :
    Except UsageError Given :=
  let (name, attached) := splitAttached text
  match spec.options.find? fun o => o.long = name with
  | some option => given.apply option attached
  | none => .error .unknownArgument

/-- Applies options in their short form, without the dash.  What follows the
letter of an option that takes a value is the value, without a leading `=`. -/
def applyLetters (spec : CommandSpec) (given : Given) : List Char → Except UsageError Given
  | [] => .ok given
  | c :: cs =>
    match spec.options.find? fun o => o.letter = some c with
    | none => .error .unknownArgument
    | some option =>
      match option.effect, cs with
      | .take _, [] => given.apply option none
      | .take _, '=' :: value => given.apply option (some (String.ofList value))
      | .take _, value => given.apply option (some (String.ofList value))
      | _, cs => do applyLetters spec (← given.apply option none) cs

def takeArgument (spec : CommandSpec) (given : Given) (verbatim : Bool) (arg : String) :
    Except UsageError Given :=
  let stray : Except UsageError Given :=
    if spec.subcommands.isEmpty then .error .unknownArgument
    else if verbatim && spec.subcommands.contains arg then .error .unknownArgument
    else .error .invalidSubcommand
  match spec.argument with
  | none => stray
  | some (name, kind) =>
    if given.mentions name then stray
    else do .ok ((← given.settle).hold ⟨name, kind, some arg⟩)

/-- A name of a command below, and the arguments after it. -/
abbrev Descent := String × List String

/-- Reads the arguments of a command up to the name of a command below it.
`verbatim` tells whether a double dash came already. -/
def readLevel (spec : CommandSpec) (verbatim : Bool) (given : Given) :
    List String → Except UsageError (Given × Option Descent)
  | [] => do .ok (← given.settle, none)
  | arg :: args =>
    if verbatim then do
      readLevel spec true (← takeArgument spec given true arg) args
    else if !given.waits && spec.subcommands.contains arg then
      .ok (given, some (arg, args))
    else
      match arg.toList with
      | ['-', '-'] => readLevel spec true given args
      | '-' :: '-' :: text => do readLevel spec false (← applyLong spec given text) args
      | '-' :: c :: cs => do readLevel spec false (← applyLetters spec given (c :: cs)) args
      | _ =>
        if given.waits then readLevel spec false (given.supply arg) args
        else do readLevel spec false (← takeArgument spec given false arg) args

def readHelp : List String → UsageError
  | [] => .displayHelp
  | [name] => if root.subcommands.contains name then .displayHelp else .invalidSubcommand
  | _ => .invalidSubcommand

def readCommand (name : String) (args : List String) : Except UsageError Given := do
  let spec := command name
  let (given, _) ← readLevel spec false {} args
  match spec.argument with
  | some (argument, _) =>
    if (given.value? argument).isSome then .ok given else .error .missingArgument
  | none => .ok given

structure Request where
  file : Option FilePath
  action : Action
deriving DecidableEq, Inhabited

def toAction (name : String) (given : Given) : Action :=
  match name with
  | "get" => .get ((given.value? "key").getD "")
  | "env" => .listEnv
  | "gen" =>
    .generate ⟨(given.value? "schema").getD ""⟩ ((given.value? "output").map FilePath.mk)
      (given.value? "runtime")
  | _ => .display (given.value? "json").isSome

/-- The request that arguments make.  Without the name of an action every
setting is displayed. -/
def read (args : List String) : Except UsageError Request := do
  let (given, descent) ← readLevel root false {} args
  match descent with
  | none => .ok ⟨(given.value? "file").map FilePath.mk, .display false⟩
  | some (name, rest) =>
    if name = "help" then .error (readHelp rest)
    else
      let below ← readCommand name rest
      let given ← given.settle
      .ok ⟨((below.value? "file").or (given.value? "file")).map FilePath.mk, toAction name below⟩

end LayeredConfig.CommandLine
