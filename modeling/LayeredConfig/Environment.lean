import LayeredConfig.Message.ValueType
import LayeredConfig.SortedMap
import LayeredConfig.Text.WhiteSpace
import LayeredConfig.Text.Split

/-!
# The environment

An environment gives texts to names.  Reading never fails: a variable that is
absent, empty, or does not denote a value of the wanted type reads as nothing.
Lists are separated by commas.  A list of strings is the text between the
commas, unchanged; in every other list the elements are trimmed, and those that
denote no value are passed over.
-/

namespace LayeredConfig

structure Environment where
  texts : SortedMap String String

namespace Environment

def empty : Environment := ⟨SortedMap.empty⟩

/-- The environment with the given variables; the last text for a name stays. -/
def ofList (entries : List (String × String)) : Environment :=
  ⟨SortedMap.ofList entries⟩

/-- The text of a variable.  The empty text counts as absent. -/
def text? (env : Environment) (name : String) : Option String :=
  (env.texts.find? name).filter fun text => text != ""

def value? (env : Environment) (name : String) (type : ValueType) : Option type.Val :=
  (env.text? name).bind type.ofText?

end Environment

namespace ValueType

/-- The values that a comma-separated text denotes. -/
def listOfText : (t : ValueType) → String → List t.Val
  | scalar .string, text => Text.splitString ',' text
  | t, text => (Text.splitString ',' text).filterMap fun element =>
      t.ofText? (Text.trimString element)

end ValueType

namespace Environment

/-- The values a list variable denotes; nothing if there are none. -/
def list? (env : Environment) (name : String) (type : ValueType) : Option (List type.Val) :=
  ((env.text? name).map type.listOfText).filter fun values => !values.isEmpty

end Environment

end LayeredConfig
