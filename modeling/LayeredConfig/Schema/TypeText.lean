import LayeredConfig.Message.Fields
import LayeredConfig.Text.WhiteSpace

/-!
# The written types of fields

A schema writes the type of a field as a text: the name of a scalar type, an
enum or a message; such a name after `repeated`; or `map<K, V>` with two scalar
types.  White space around the parts is ignored.  Enums and messages are found
in a table of the declared names.
-/

namespace LayeredConfig

inductive Declared where
  | enum (type : EnumType)
  | message
deriving DecidableEq

abbrev Names := List (String × Declared)

/-- The type of a field.  Messages are referred to by name. -/
inductive FieldType where
  | plain (kind : Kind)
  | message (name : String)
  | messageList (name : String)
deriving DecidableEq

namespace FieldType

open Text

def mapParts? (text : List Char) : Option (List Char × List Char) := do
  let inner ← dropStart? "map".toList (trim text)
  let inner ← dropStart? ['<'] (trimStart inner)
  let inner ← dropLast? '>' inner
  let (key, value) ← splitOnce? ',' inner
  some (trim key, trim value)

def declared? (names : Names) (name : String) : Option Declared :=
  (names.find? fun entry => entry.1 = name).map (·.2)

/-- The type of a single value or message, if `name` denotes one. -/
def single? (names : Names) (name : String) : Option FieldType :=
  match Scalar.ofName? name with
  | some s => some (.plain (.leaf (.scalar s)))
  | none => (declared? names name).map fun
      | .enum type => .plain (.leaf (.enum type))
      | .message => .message name

def repeated? (names : Names) (name : String) : Option FieldType :=
  match Scalar.ofName? name with
  | some s => some (.plain (.list (.scalar s)))
  | none => (declared? names name).map fun
      | .enum type => .plain (.list (.enum type))
      | .message => .messageList name

def map? (key value : List Char) : Option FieldType := do
  some (.plain (.map (← Scalar.ofName? (String.ofList key)) (← Scalar.ofName? (String.ofList value))))

def ofText? (names : Names) (text : String) : Option FieldType :=
  let text := trim text.toList
  match mapParts? text with
  | some (key, value) => map? key value
  | none =>
    match dropStart? "repeated ".toList text with
    | some inner => repeated? names (String.ofList (trim inner))
    | none => single? names (String.ofList text)

/-- The texts of the key type and the value type of a written map, as
strings. -/
def mapTexts? (text : String) : Option (String × String) :=
  (mapParts? text.toList).map fun (key, value) => (String.ofList key, String.ofList value)

end FieldType

end LayeredConfig
