import LayeredConfig.ConfigError
import LayeredConfig.Message.Listing

/-!
# Actions and their results

What can be asked of a configuration, and what is answered.
-/

namespace LayeredConfig

inductive Action where
  /-- Every setting with its value, or the configuration as JSON. -/
  | display (json : Bool)
  /-- The value and documentation of one key. -/
  | get (key : String)
  /-- The variables of the environment that are read. -/
  | listEnv
  /-- Code for a schema file, into a directory, for a runtime. -/
  | generate (schema : FilePath) (output : Option FilePath) (runtime : Option String)
deriving DecidableEq, Inhabited

inductive Result where
  | listing (entries : List (String × String))
  | keyValue (key value : String) (doc : List String)
  | envVars (vars : List Variable)
  | json (text : String)
  | generated (path : FilePath)
deriving DecidableEq, Inhabited

namespace Result

/-- Lines of documentation as comments. -/
def comments (doc : List String) : String :=
  String.join (doc.map fun line => "# " ++ line ++ "\n")

def variableText (v : Variable) : String :=
  comments v.doc ++ v.name ++ " (" ++ v.type ++ ")"

def text : Result → String
  | listing entries => "\n".intercalate (entries.map fun e => e.1 ++ " = " ++ e.2)
  | keyValue key value doc => comments doc ++ key ++ " = " ++ value
  | envVars vars => "\n".intercalate (vars.map variableText)
  | json text => text
  | generated path => "Generated code written to " ++ path.text

end Result

end LayeredConfig
