import LayeredConfig.Text.Split

/-!
# File paths

A path is a text whose parts are separated by slashes.  Empty parts and single
dots carry no meaning, except for a dot at the very start of a relative path;
what follows the last slash decides whether a path insists on naming a
directory.  All functions here work on the text alone.
-/

namespace LayeredConfig

structure FilePath where
  text : String
deriving DecidableEq, Inhabited

namespace FilePath

/-- How a path ends: in a name, in a slash, or in a single dot. -/
inductive Ending where
  | name
  | slash
  | dot
deriving DecidableEq, Inhabited

/-- Everything between slashes, empty texts and dots included. -/
def pieces (path : FilePath) : List String :=
  Text.splitString '/' path.text

def isAbsolute (path : FilePath) : Bool :=
  path.text.toList.head? == some '/'

/-- The parts that say where the path leads: names and double dots. -/
def parts (path : FilePath) : List String :=
  path.pieces.filter fun piece => piece != "" && piece != "."

def ending (path : FilePath) : Ending :=
  match path.pieces.getLast? with
  | some "" => .slash
  | some "." => .dot
  | _ => .name

/-- Whether the last piece that is not empty is a dot.  Such a path asks for the
inside of the directory before the dot, however many slashes follow. -/
def endsInDot (path : FilePath) : Bool :=
  (path.pieces.filter (· != "")).getLast? == some "."

/-- The name at the end of the path.  A double dot is no name. -/
def fileName? (path : FilePath) : Option String :=
  path.parts.getLast?.filter fun part => part != ".."

/-- A name in two at its last dot.  A dot at the start does not count. -/
def splitName (name : String) : String × Option String :=
  let cs := name.toList
  let after := (cs.reverse.takeWhile fun c => c != '.').reverse
  let before := cs.take (cs.length - after.length - 1)
  if before.isEmpty then (name, none) else (String.ofList before, some (String.ofList after))

def stem? (path : FilePath) : Option String :=
  path.fileName?.map fun name => (splitName name).1

def extension? (path : FilePath) : Option String :=
  path.fileName?.bind fun name => (splitName name).2

/-- The path that `other` names when it is read from `path`. -/
def join (path other : FilePath) : FilePath :=
  if other.isAbsolute then other
  else if path.text = "" || path.text.toList.getLast? == some '/' then
    ⟨path.text ++ other.text⟩
  else ⟨path.text ++ "/" ++ other.text⟩

def extend (path : FilePath) (parts : List String) : FilePath :=
  parts.foldl (fun path part => path.join ⟨part⟩) path

/-- The absolute form of a path that is not empty, read from the directory
`current`.  Dots and doubled slashes are dropped, double dots are kept, and so
is a slash at the end.  Two slashes at the start stay two, more become one. -/
def absolute (path current : FilePath) : FilePath :=
  let start : FilePath :=
    if path.isAbsolute then
      match path.text.toList with
      | '/' :: '/' :: '/' :: _ => ⟨"/"⟩
      | '/' :: '/' :: _ => ⟨"//"⟩
      | _ => ⟨"/"⟩
    else current
  let whole := start.extend path.parts
  match path.ending with
  | .slash => whole.join ⟨""⟩
  | _ => whole

end FilePath

inductive Format where
  | json
  | yaml
deriving DecidableEq, Inhabited

namespace Format

/-- The format that the extension of a path announces, in letters of either
case. -/
def ofPath? (path : FilePath) : Option Format :=
  match path.extension?.map fun extension => extension.toList.map Char.toLower with
  | some ['j', 's', 'o', 'n'] => some json
  | some ['y', 'a', 'm', 'l'] => some yaml
  | some ['y', 'm', 'l'] => some yaml
  | _ => none

end Format

end LayeredConfig
