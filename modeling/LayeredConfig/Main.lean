import LayeredConfig.Agent.Loader
import LayeredConfig.CommandLine

/-!
# The program

Reads the arguments, the variables that loading depends on, and the files that
the request names; lets the library answer; then prints the answer and puts on
disk what the answer changed.
-/

namespace LayeredConfig.Program

def diskPath (location : Location) : String :=
  ((FilePath.mk "/").extend location).text

/-- What is on disk at a location. -/
def probe (location : Location) : IO (Option Node) := do
  try
    return some (.file (← IO.FS.readBinFile (diskPath location)))
  catch error =>
    match error with
    | .noFileOrDirectory .. => return none
    | _ => return some .directory

/-- Adds what is on disk along some locations, up to the first that is no
directory. -/
def survey (files : FileSystem) : List Location → IO FileSystem
  | [] => return files
  | location :: locations => do
    match ← probe location with
    | some .directory => survey (files.set location .directory) locations
    | some node => return files.set location node
    | none => return files

/-- Puts on disk what differs between two file systems along some locations. -/
def store (old new : FileSystem) (locations : List Location) : IO Unit := do
  for location in locations do
    match old.node? location, new.node? location with
    | none, some .directory => IO.FS.createDir (diskPath location)
    | none, some (.file content) => IO.FS.writeBinFile (diskPath location) content
    | some (.file before), some (.file content) =>
      if before != content then IO.FS.writeBinFile (diskPath location) content
    | _, _ => pure ()

/-- The file that an action writes; the directories it makes lie on the way. -/
def outputs : Action → List FilePath
  | .generate schema output _ => [(output.getD ⟨"."⟩).join ⟨Code.fileName schema⟩]
  | _ => []

def inputs (loader : Loader Agent.config) : Action → List FilePath
  | .generate schema _ _ => [schema]
  | .listEnv => []
  | _ => loader.filePath?.toList.flatMap fun path => [path]

def report (event : Event) : IO Unit :=
  match event.level with
  | .warn => do
    let details := event.details.map fun (name, value) => " " ++ name ++ "=" ++ value
    IO.eprintln (event.level.name ++ " " ++ event.message ++ String.join details)
  | _ => pure ()

/-- Answers a request.  Gives the exit code. -/
def run (request : CommandLine.Request) : IO UInt32 := do
  let names := (Agent.loader Environment.empty).envVars.map Variable.name
  let mut entries := []
  for name in names do
    if let some text ← IO.getEnv name then
      entries := (name, text) :: entries
  let loader := Agent.loader (Environment.ofList entries)
  let loader :=
    match request.file with
    | some path => { loader with file := .path path }
    | none => loader
  let current := FilePath.parts ⟨(← IO.currentDir).toString⟩
  let mut files : FileSystem := ⟨current, fun _ => none⟩
  let written := outputs request.action
  let locations (path : FilePath) := FileSystem.trail (files.start path) path.parts
  for path in inputs loader request.action ++ written do
    files ← survey files ([] :: FileSystem.trail [] current ++ locations path)
  let handled := loader.handle files request.action
  handled.events.forM report
  for path in written do
    store files handled.files (locations path)
  match handled.result with
  | .ok result =>
    IO.println result.text
    return 0
  | .error error =>
    IO.eprintln ("error: " ++ error.message)
    return 1

def usage : String :=
  "Usage: htconfig [--file <FILE>] [show [--json] | get <KEY> | env | " ++
    "gen <SCHEMA> [--output <OUTPUT>] [--runtime <RUNTIME>] | help]"

def refuse : CommandLine.UsageError → IO UInt32
  | .displayHelp => do
    IO.println usage
    return 0
  | .displayVersion => do
    IO.println "htconfig 0.4.0"
    return 0
  | _ => do
    IO.eprintln usage
    return 2

end LayeredConfig.Program

def main (args : List String) : IO UInt32 :=
  match LayeredConfig.CommandLine.read args with
  | .ok request => LayeredConfig.Program.run request
  | .error error => LayeredConfig.Program.refuse error
