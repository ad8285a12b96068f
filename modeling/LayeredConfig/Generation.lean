import LayeredConfig.Code.Module
import LayeredConfig.FileSystem
import LayeredConfig.Schema.Resolve

/-!
# Generating code from schema files

A schema file is read and resolved before anything is written.  The code goes
into a file that is named after the schema, in a directory that is made if it
is missing.
-/

namespace LayeredConfig

inductive GenerationError where
  | unreadable (path : FilePath) (error : FileError)
  | unparsable (path : FilePath)
  | refused (error : SchemaError)
  | unwritable (path : FilePath) (error : FileError)
deriving DecidableEq, Inhabited

namespace GenerationError

/-- The text of an error.  What a parser says about a malformed text is not
part of this library. -/
def message : GenerationError → String
  | unreadable path error => "Failed to read schema " ++ path.text ++ ": " ++ error.message
  | unparsable path => "Failed to parse schema " ++ path.text ++ ": "
  | refused error => error.message
  | unwritable path error => "Failed to write " ++ path.text ++ ": " ++ error.message

end GenerationError

namespace Schema

def ofText (text : String) (path : FilePath) : Except GenerationError Schema :=
  match RawSchema.parse? text with
  | none => .error (.unparsable path)
  | some raw =>
    match resolve raw with
    | .error error => .error (.refused error)
    | .ok schema => .ok schema

def load (files : FileSystem) (path : FilePath) : Except GenerationError Schema :=
  match files.read path with
  | .error error => .error (.unreadable path error)
  | .ok text => ofText text path

end Schema

namespace Code

def fileName (schema : FilePath) : String :=
  schema.stem?.getD "schema" ++ ".rs"

/-- Writes the code of the schema file into a directory.  Gives the path of the
written file and the file system afterwards. -/
def generateFile (files : FileSystem) (schema directory : FilePath) (options : Options) :
    Except GenerationError FilePath × FileSystem :=
  match Schema.load files schema with
  | .error error => (.error error, files)
  | .ok resolved =>
    let options := { options with sourceName := options.sourceName.or schema.fileName? }
    let path := directory.join ⟨fileName schema⟩
    match files.makeDirectories directory with
    | (.error error, files) => (.error (.unwritable directory error), files)
    | (.ok (), files) =>
      match files.write path (generate resolved options) with
      | .error error => (.error (.unwritable path error), files)
      | .ok files => (.ok path, files)

end Code

end LayeredConfig
