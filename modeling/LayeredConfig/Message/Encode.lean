import LayeredConfig.Message.Tree
import LayeredConfig.Json.Writer

/-!
# Trees as documents

The document of a tree is an object with a member for every set field, in
declaration order.  An unset field has no member, while a nested message that
is present but empty is an empty object.  Maps become objects whose keys are
the texts of their keys.
-/

namespace LayeredConfig

namespace Kind

def toJson? : (kind : Kind) → kind.Slot → Option Json
  | leaf type, value => value.map type.toJson
  | list type, values =>
    if values.isEmpty then none else some (.array (values.map type.toJson))
  | map key value, entries =>
    if entries.isEmpty then none
    else some (.object (entries.entries.map fun e => (key.toText e.1, value.toJson e.2)))

end Kind

namespace Tree

def memberOf (field : Label) (json : Option Json) : Json.Members :=
  json.toList.map fun json => (field.name, json)

/-- The members for the set fields of a tree, in declaration order. -/
def members : (fields : Fields) → Tree fields → Json.Members
  | .nil, _ => []
  | .plain field kind rest, (slot, tree) =>
    memberOf field (kind.toJson? slot) ++ members rest tree
  | .nested field _ sub rest, (slot, tree) =>
    memberOf field (slot.map fun t => .object (members sub t)) ++ members rest tree
  | .nestedList field _ sub rest, (slot, tree) =>
    let items := slot.map fun t => Json.object (members sub t)
    memberOf field (if items.isEmpty then none else some (.array items)) ++ members rest tree

def toJson {fields : Fields} (tree : Tree fields) : Json :=
  .object (members fields tree)

/-- The document of a tree with the members of every object in key order. -/
def toSortedJson {fields : Fields} (tree : Tree fields) : Json :=
  tree.toJson.sort

def toText {fields : Fields} (tree : Tree fields) : String :=
  tree.toJson.prettyText

end Tree

end LayeredConfig
