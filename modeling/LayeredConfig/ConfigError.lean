import LayeredConfig.Generation
import LayeredConfig.Message.Decode

/-!
# Errors

Why a configuration file was not loaded, a key not found, or code not
generated.
-/

namespace LayeredConfig

inductive ConfigError where
  | unopened (path : FilePath) (error : FileError)
  | unreadable (path : FilePath) (error : FileError)
  | notJson (path : FilePath)
  | notYaml (path : FilePath)
  | mismatch (path : FilePath) (error : DecodeError)
  | unknownExtension (path : FilePath)
  | unresolved (path : FilePath) (error : FileError)
  | keyNotFound (key : String)
  | unwritable (path : FilePath) (error : FileError)
  | generation (error : GenerationError)
deriving DecidableEq, Inhabited

namespace ConfigError

/-- The text of an error.  What a parser says about a malformed text is not
part of this library; the text ends before it. -/
def message : ConfigError → String
  | unopened path error => "Failed to open " ++ path.text ++ ": " ++ error.message
  | unreadable path error => "Failed to read " ++ path.text ++ ": " ++ error.message
  | notJson path => "Failed to parse " ++ path.text ++ ": "
  | notYaml path => "Failed to parse " ++ path.text ++ ": "
  | mismatch path error => "Failed to parse " ++ path.text ++ ": " ++ error.message?.getD ""
  | unknownExtension path =>
    "Unknown config file extension for " ++ path.text ++ ": expected .json, .yaml or .yml"
  | unresolved path error => "Failed to resolve path " ++ path.text ++ ": " ++ error.message
  | keyNotFound key => "Key not found: " ++ key
  | unwritable path error => "Failed to write " ++ path.text ++ ": " ++ error.message
  | generation error => error.message

end ConfigError

end LayeredConfig
