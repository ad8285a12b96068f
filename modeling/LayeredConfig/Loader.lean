import LayeredConfig.Action
import LayeredConfig.ConfigFile
import LayeredConfig.Message.Overlay

/-!
# Loading through all layers

A loader starts from a tree, lays the configuration file over it, if there is
one, and fills what is still unset from the environment and then from the
defaults.  A setting that the file gives thus wins over the tree that was
there, that over the environment, and the environment over the defaults.
-/

namespace LayeredConfig

inductive FileSource where
  | none
  /-- The path is the text of a variable. -/
  | environment
  | path (path : FilePath)
deriving DecidableEq, Inhabited

structure Loader (message : Message) where
  /-- What all variables start with. -/
  stem : String := "HT_"
  file : FileSource := .none
  env : Environment
  defaults : Option (Tree message.fields) := none

namespace Loader

variable {message : Message}

def fileVariable (loader : Loader message) : String :=
  loader.stem ++ "CONFIG_FILE"

def filePath? (loader : Loader message) : Option FilePath :=
  match loader.file with
  | .none => Option.none
  | .environment => (loader.env.text? loader.fileVariable).map FilePath.mk
  | .path path => some path

/-- Runs the layers over a tree. -/
def loadOnto (loader : Loader message) (files : FileSystem) (tree : Tree message.fields) :
    Logged (Tree message.fields) :=
  let (tree, events) :=
    match loader.filePath? with
    | some path => ConfigFile.loadOrSkip message files path tree
    | Option.none => (tree, [])
  (tree.overlay loader.env loader.stem loader.defaults, events)

def load (loader : Loader message) (files : FileSystem) : Logged (Tree message.fields) :=
  loader.loadOnto files (Tree.empty message.fields)

def envVars (loader : Loader message) : List Variable :=
  let settings := message.envVars loader.stem
  match loader.file with
  | .environment =>
    { name := loader.fileVariable
      type := "path"
      doc := ["JSON or YAML config file loaded before the environment."] } :: settings
  | _ => settings

/-- Generates code for a schema file.  The directory is made first. -/
def generate (files : FileSystem) (schema : FilePath) (output : Option FilePath)
    (runtime : Option String) : Except ConfigError Result × FileSystem :=
  let options : Code.Options :=
    match runtime with
    | some runtime => { runtime := runtime }
    | Option.none => {}
  let directory := output.getD ⟨"."⟩
  match files.makeDirectories directory with
  | (.error error, files) => (.error (.unwritable directory error), files)
  | (.ok (), files) =>
    match Code.generateFile files schema directory options with
    | (.error error, files) => (.error (.generation error), files)
    | (.ok path, files) => (.ok (.generated path), files)

/-- What an action answers and tells, and the file system afterwards. -/
structure Handled where
  result : Except ConfigError Result
  events : List Event
  files : FileSystem

def handle (loader : Loader message) (files : FileSystem) : Action → Handled
  | .display json =>
    let (tree, events) := loader.load files
    ⟨.ok (if json then .json tree.toText else .listing (message.entries tree)), events, files⟩
  | .get key =>
    let (tree, events) := loader.load files
    let result :=
      match message.entry? tree key with
      | some (value, doc) => .ok (.keyValue key value doc)
      | Option.none => .error (.keyNotFound key)
    ⟨result, events, files⟩
  | .listEnv => ⟨.ok (.envVars loader.envVars), [], files⟩
  | .generate schema output runtime =>
    let (result, files) := generate files schema output runtime
    ⟨result, [], files⟩

end Loader

end LayeredConfig
