import LayeredConfig.Message.Encode

/-!
# Listing settings and variables

The settings of a message are its fields that are no nested message, together
with those of its nested messages under a dotted key.  Every setting has a
displayed value; the ones that the environment can set also have a variable.
-/

namespace LayeredConfig

/-- The text displayed for a value: a string as it is, everything else as
compact JSON, and a mark for what is unset. -/
def displayValue : Option Json → String
  | none | some .null => "<not set>"
  | some (.string s) => s
  | some json => json.compactText

structure Variable where
  name : String
  type : String
  doc : List String
deriving DecidableEq, Inhabited

namespace Kind

/-- What the variable of a field holds; nothing if it has none. -/
def variableType? : Kind → Option String
  | leaf type => some type.describe
  | list type => some ("comma-separated " ++ type.describe)
  | map _ _ => none

end Kind

namespace Fields

def envVars : Fields → String → List Variable
  | nil, _ => []
  | plain field kind rest, stem =>
    (kind.variableType?.map fun type =>
      { name := stem ++ field.envSuffix, type := type, doc := field.doc : Variable }).toList ++
      rest.envVars stem
  | nested field _ sub rest, stem =>
    sub.envVars (stem ++ field.envSuffix ++ "_") ++ rest.envVars stem
  | nestedList _ _ _ rest, stem => rest.envVars stem

def dottedKey (parent name : String) : String :=
  if parent = "" then name else parent ++ "." ++ name

/-- The settings with their displayed values, in declaration order, given the
document of the tree. -/
def entries : Fields → Option Json → String → List (String × String)
  | nil, _, _ => []
  | plain field _ rest, json, parent =>
    (dottedKey parent field.name, displayValue (json.bind (·.get? field.name))) ::
      rest.entries json parent
  | nested field _ sub rest, json, parent =>
    sub.entries (json.bind (·.get? field.name)) (dottedKey parent field.name) ++
      rest.entries json parent
  | nestedList field _ _ rest, json, parent =>
    (dottedKey parent field.name, displayValue (json.bind (·.get? field.name))) ::
      rest.entries json parent

end Fields

namespace Message

def envVars (message : Message) (stem : String) : List Variable :=
  message.fields.envVars stem

def entries (message : Message) (tree : Tree message.fields) : List (String × String) :=
  message.fields.entries (some tree.toSortedJson) ""

/-- The displayed value at a dotted key, and the documentation of the field. -/
def entry? (message : Message) (tree : Tree message.fields) (key : String) :
    Option (String × List String) :=
  (message.lookup? key).map fun field =>
    (displayValue ((Text.splitString '.' key).foldl
      (fun json name => json.bind (·.get? name)) (some tree.toSortedJson)), field.label.doc)

end Message

end LayeredConfig
