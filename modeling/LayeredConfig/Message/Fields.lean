import LayeredConfig.Message.ValueType
import LayeredConfig.Schema.Name

/-!
# Messages and their fields

A message type is a name, its documentation and a chain of fields.  A plain
field holds one value, a list of values or a map of scalars; a nested field
holds one message or none, and the last kind a list of messages.  The chain is
one inductive type with the fields of nested messages inside it, so a message
type is finite by construction and every function on it is a recursion along
the chain.
-/

namespace LayeredConfig

structure Label where
  name : String
  doc : List String := []
deriving DecidableEq, Inhabited

namespace Label

/-- What a setting's variable adds to the stem of its message. -/
def envSuffix (label : Label) : String := Name.toEnvSuffix label.name

def publicName (label : Label) : String := Name.toPublic label.name

/-- The keys under which documents may hold the field: its name, and the camel
case form where that differs. -/
def keys (label : Label) : List String :=
  let camel := Name.toLowerCamel label.name
  if camel = label.name then [label.name] else [label.name, camel]

end Label

/-- What a field without messages holds. -/
inductive Kind where
  | leaf (type : ValueType)
  | list (type : ValueType)
  | map (key value : Scalar)
deriving DecidableEq

inductive Fields where
  | nil
  | plain (field : Label) (kind : Kind) (rest : Fields)
  | nested (field message : Label) (sub rest : Fields)
  | nestedList (field message : Label) (sub rest : Fields)

structure Message where
  label : Label
  fields : Fields

inductive Content where
  | plain (kind : Kind)
  | nested (message : Message)
  | nestedList (message : Message)

structure Field where
  label : Label
  content : Content

namespace Kind

def describe : Kind → String
  | leaf type => type.describe
  | list type => "list of " ++ type.describe
  | map key value => "map of " ++ key.name ++ " => " ++ value.name

end Kind

namespace Fields

def toList : Fields → List Field
  | nil => []
  | plain field kind rest => ⟨field, .plain kind⟩ :: rest.toList
  | nested field message sub rest => ⟨field, .nested ⟨message, sub⟩⟩ :: rest.toList
  | nestedList field message sub rest => ⟨field, .nestedList ⟨message, sub⟩⟩ :: rest.toList

def find? (fields : Fields) (name : String) : Option Field :=
  fields.toList.find? fun field => field.label.name = name

/-- The field reached by following names through nested messages. -/
def lookup? (fields : Fields) : List String → Option Field
  | [] => none
  | [name] => fields.find? name
  | name :: rest =>
    match fields.find? name with
    | some ⟨_, .nested message⟩ => message.fields.lookup? rest
    | _ => none

end Fields

namespace Message

def lookup? (message : Message) (key : String) : Option Field :=
  message.fields.lookup? (Text.splitString '.' key)

end Message

end LayeredConfig
