import LayeredConfig.FilePath

/-!
# Files and directories

A file system gives a node to some locations, a location being the names on
the way from the root.  Paths are followed part by part: each part but the last
must lead to a directory.  Nothing that fails changes the file system, with one
exception: `makeDirectories` keeps the directories it had made.
-/

namespace LayeredConfig

/-- The names on the way from the root. -/
abbrev Location := List String

inductive Node where
  | directory
  | file (content : ByteArray)
deriving Inhabited

inductive FileError where
  | notFound
  | alreadyExists
  | notDirectory
  | isDirectory
  | nameTooLong
  | nulInPath
  | notText
  | emptyPath
deriving DecidableEq, Inhabited

namespace FileError

def message : FileError → String
  | notFound => "No such file or directory (os error 2)"
  | alreadyExists => "File exists (os error 17)"
  | notDirectory => "Not a directory (os error 20)"
  | isDirectory => "Is a directory (os error 21)"
  | nameTooLong => "File name too long (os error 36)"
  | nulInPath => "file name contained an unexpected NUL byte"
  | notText => "stream did not contain valid UTF-8"
  | emptyPath => "cannot make an empty path absolute"

end FileError

/-- The nodes of a file system and the location from which relative paths
start. -/
structure FileSystem where
  current : Location
  node? : Location → Option Node

namespace FileSystem

def nameLimit : Nat := 255

def pathLimit : Nat := 4095

def currentPath (files : FileSystem) : FilePath :=
  (FilePath.mk "/").extend files.current

def set (files : FileSystem) (location : Location) (node : Node) : FileSystem :=
  { files with node? := fun l => if l = location then some node else files.node? l }

/-- One part further from a directory. -/
def step (directory : Location) (part : String) : Except FileError Location :=
  if part = ".." then .ok directory.dropLast
  else if nameLimit < part.utf8ByteSize then .error .nameTooLong
  else .ok (directory ++ [part])

def get (files : FileSystem) (location : Location) : Except FileError Node :=
  match files.node? location with
  | some node => .ok node
  | none => .error .notFound

/-- The directory reached by following parts that all lead to directories. -/
def follow (files : FileSystem) (directory : Location) : List String → Except FileError Location
  | [] => .ok directory
  | part :: parts => do
    let location ← step directory part
    match ← files.get location with
    | .directory => files.follow location parts
    | .file _ => .error .notDirectory

def start (files : FileSystem) (path : FilePath) : Location :=
  if path.isAbsolute then [] else files.current

/-- A path that is no text for the file system: an empty one, one with a NUL
character, and one beyond the length limit. -/
def check (path : FilePath) : Except FileError Unit :=
  if path.text.toList.contains '\x00' then .error .nulInPath
  else if path.text = "" then .error .notFound
  else if pathLimit < path.text.utf8ByteSize then .error .nameTooLong
  else .ok ()

/-- The location a path leads to.  The last part need not exist. -/
def locate (files : FileSystem) (path : FilePath) : Except FileError Location := do
  check path
  let directory ← files.follow (files.start path) path.parts.dropLast
  match path.parts.getLast? with
  | none => .ok directory
  | some part => step directory part

/-- The node a path leads to.  A path that ends in a slash or a dot leads to
directories only. -/
def open? (files : FileSystem) (path : FilePath) : Except FileError Node := do
  match ← files.get (← files.locate path) with
  | .directory => .ok .directory
  | .file content => if path.ending = .name then .ok (.file content) else .error .notDirectory

def textOf : Node → Except FileError String
  | .directory => .error .isDirectory
  | .file content =>
    match String.fromUTF8? content with
    | some text => .ok text
    | none => .error .notText

def read (files : FileSystem) (path : FilePath) : Except FileError String := do
  textOf (← files.open? path)

def isFile (files : FileSystem) (path : FilePath) : Bool :=
  match files.open? path with
  | .ok (.file _) => true
  | _ => false

/-- Writes a text to the file at a path, which is created if it is missing. -/
def write (files : FileSystem) (path : FilePath) (text : String) :
    Except FileError FileSystem := do
  let location ← files.locate path
  match files.node? location with
  | some .directory => .error .isDirectory
  | _ =>
    if path.ending = .name then .ok (files.set location (.file text.toUTF8))
    else .error .isDirectory

/-- Creates the directory that `parts` lead to from a directory.  If the path
goes on to the `inside` of that directory, it must be there already, and then
there is nothing to create. -/
def makeDirectory (files : FileSystem) (directory : Location) (parts : List String)
    (inside : Bool) : Except FileError FileSystem := do
  let parent ← files.follow directory parts.dropLast
  match parts.getLast? with
  | none => .error .alreadyExists
  | some part =>
    let location ← step parent part
    match files.node? location, inside with
    | some (.file _), true => .error .notDirectory
    | some _, _ => .error .alreadyExists
    | none, true => .error .notFound
    | none, false => .ok (files.set location .directory)

def isDirectory (files : FileSystem) (directory : Location) (parts : List String) : Bool :=
  match files.follow directory parts with
  | .ok _ => true
  | .error _ => false

/-- Creates the directory that parts, given from the last to the first, lead to
from a directory, and before it those on the way that are missing.  Gives the
directories made so far even if the last step fails. -/
def makeAll (directory : Location) (files : FileSystem) :
    List String → (inside : Bool) → Except FileError Unit × FileSystem
  | [], _ => (.ok (), files)
  | part :: above, inside =>
    let parts := (part :: above).reverse
    let settle (files : FileSystem) (error : FileError) :=
      (if files.isDirectory directory parts then .ok () else .error error, files)
    match files.makeDirectory directory parts inside with
    | .ok files => (.ok (), files)
    | .error .notFound =>
      match makeAll directory files above false with
      | (.error error, files) => (.error error, files)
      | (.ok (), files) =>
        match files.makeDirectory directory parts inside with
        | .ok files => (.ok (), files)
        | .error error => settle files error
    | .error error => settle files error

/-- Creates the directory at a path and those on the way to it.  The empty path
is the current directory. -/
def makeDirectories (files : FileSystem) (path : FilePath) :
    Except FileError Unit × FileSystem :=
  if path.text = "" then (.ok (), files)
  else
    match check path with
    | .error error => (.error error, files)
    | .ok () => makeAll (files.start path) files path.parts.reverse path.endsInDot

/-- The locations that following parts from a directory comes by. -/
def trail (directory : Location) : List String → List Location
  | [] => [directory]
  | part :: parts => directory :: trail ((step directory part).toOption.getD directory) parts

def absolute (files : FileSystem) (path : FilePath) : Except FileError FilePath :=
  if path.text = "" then .error .emptyPath else .ok (path.absolute files.currentPath)

end FileSystem

end LayeredConfig
