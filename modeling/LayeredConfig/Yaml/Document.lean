import LayeredConfig.Yaml.Node
import LayeredConfig.Yaml.Scalar

/-!
# YAML documents as JSON

A YAML document is read into the document model of JSON.  Aliases are replaced
by the nodes they refer to, mappings become objects with the text of their keys,
and only the tags of the core schema are known.  Collections nest at most 128
deep, which also stops aliases that contain themselves, and the number of
aliases followed is bounded by the size of the document.
-/

namespace LayeredConfig.Yaml

/-- A tag of the application, which no value of the document model carries. -/
def isLocalTag (tag : List UInt8) : Bool :=
  tag.head? == some 0x21 && (String.fromUTF8? ⟨tag.toArray⟩).isSome

def scalarValue? (tag : Option (List UInt8)) (text : List Char) (plain : Bool) : Option Json :=
  let core (name : String) : List UInt8 := asciiBytes (coreTag ++ name).toList
  match tag with
  | none => if plain then plainValue? text else some (.string (String.ofList text))
  | some tag =>
    if isLocalTag tag then none
    else if tag = core "bool" then (boolWord? text).map .bool
    else if tag = core "int" then
      match integerRange text with
      | .fits n => some (.number (.int n))
      | _ => none
    else if tag = core "float" then (float? text).map (·.json)
    else if tag = core "null" then if isNullWord text then some .null else none
    else if tag.head? = some 0x21 && plain then plainValue? text
    else some (.string (String.ofList text))

/-- The nodes of a document by slot, and the number of aliases that may still
be followed. -/
structure Slots where
  nodes : List (Nat × Node)
  limit : Nat

def Slots.follow? (slots : Slots) (node : Node) (followed : Nat) : Option (Node × Nat) :=
  match node with
  | .reference slot =>
    if followed + 1 ≤ slots.limit then
      (slots.nodes.find? (·.1 == slot)).map fun found => (found.2, followed + 1)
    else none
  | node => some (node, followed)

def Slots.key? (slots : Slots) (node : Node) (followed : Nat) : Option (String × Nat) :=
  match slots.follow? node followed with
  | some (.scalar _ _ text _, followed) => some (String.ofList text, followed)
  | _ => none

def collectionAllowed (tag : Option (List UInt8)) : Bool :=
  !tag.any isLocalTag

/-- The value of a node with at most `depth` levels of collections. -/
def Slots.value? (slots : Slots) : Nat → Node → Nat → Option (Json × Nat)
  | depth, node, followed =>
    match slots.follow? node followed with
    | some (.scalar _ tag text plain, followed) => do some (← scalarValue? tag text plain, followed)
    | some (.sequence _ tag items, followed) =>
      match depth with
      | 0 => none
      | depth + 1 =>
        if !collectionAllowed tag then none
        else do
          let (values, followed) ← items.foldlM (fun (acc, followed) item => do
            let (v, followed) ← value? slots depth item followed
            some (v :: acc, followed)) ([], followed)
          some (.array values.reverse, followed)
    | some (.mapping _ tag entries, followed) =>
      match depth with
      | 0 => none
      | depth + 1 =>
        if !collectionAllowed tag then none
        else do
          let (members, followed) ← entries.foldlM (fun (acc, followed) (key, item) => do
            let (k, followed) ← slots.key? key followed
            let (v, followed) ← value? slots depth item followed
            some (Assoc.insert k v acc, followed)) ([], followed)
          some (.object members, followed)
    | _ => none

def depthLimit : Nat := 128

/-- The document of a text; null if there is none. -/
def parse? (text : String) : Option Json := do
  match ← readStream (← tokens? text.toList) with
  | none => some .null
  | some node =>
    let slots : Slots := ⟨node.anchored.reverse, 100 * node.events⟩
    let (json, _) ← slots.value? depthLimit node 0
    some json

end LayeredConfig.Yaml
