import LayeredConfig.Message.Decode
import LayeredConfig.Message.Encode

/-!
# Reading and setting single fields

A field can be read whether it is set or not: an unset single value reads as
the zero of its type.  The fields that hold maps can be given entries from
outside; an entry is taken for the keys that the map does not have yet.
-/

namespace LayeredConfig

namespace Kind

def read : (kind : Kind) → kind.Slot → Json
  | leaf type, value => type.toJson (value.getD type.zero)
  | list type, values => .array (values.map type.toJson)
  | map key value, entries =>
    .object (entries.entries.map fun e => (key.toText e.1, value.toJson e.2))

/-- Gives the entries of a document to a map; no other field takes any. -/
def put? (json : Json) : (kind : Kind) → kind.Slot → Option kind.Slot
  | leaf _, _ => none
  | list _, _ => none
  | map key value, entries => do
    some (entries.fillFrom (← ((map key value).decode json).toOption))

end Kind

namespace Tree

/-- What the fields of a tree read as, in declaration order. -/
def readings : (fields : Fields) → Tree fields → List Json
  | .nil, _ => []
  | .plain _ kind rest, (slot, tree) => kind.read slot :: readings rest tree
  | .nested _ _ _ rest, (slot, tree) =>
    (match slot with
      | some sub => sub.toJson
      | none => .null) :: readings rest tree
  | .nestedList _ _ _ rest, (slot, tree) =>
    .array (slot.map toJson) :: readings rest tree

def put? (name : String) (json : Json) : (fields : Fields) → Tree fields → Option (Tree fields)
  | .nil, _ => none
  | .plain field kind rest, (slot, tree) =>
    if field.name = name then (kind.put? json slot).map fun slot => (slot, tree)
    else (put? name json rest tree).map fun tree => (slot, tree)
  | .nested _ _ _ rest, (slot, tree) => (put? name json rest tree).map fun tree => (slot, tree)
  | .nestedList _ _ _ rest, (slot, tree) =>
    (put? name json rest tree).map fun tree => (slot, tree)

end Tree

end LayeredConfig
