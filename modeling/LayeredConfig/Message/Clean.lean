import LayeredConfig.Message.Fields
import LayeredConfig.Json.Path

/-!
# Removing misfits from documents

Before a document is read as a tree, the values that do not fit their fields
are taken out of it, so that the rest of the document still counts.  Each one
is reported with its path and the type that was expected there.  Null means
"unset" and is removed from a known key without a report.  Members that belong
to no field stay, whatever they hold.
-/

namespace LayeredConfig

/-- A value that was removed because it does not fit its field. -/
structure Mistyped where
  path : Json.Path
  expected : String
deriving DecidableEq, Inhabited

/-- What is left of a value, nothing if it had to go as a whole, and the
reports on what was removed. -/
abbrev Cleaned (α : Type) := Option α × List Mistyped

namespace Scalar

def keyFits (s : Scalar) (key : String) : Bool :=
  (s.ofText? key).isSome

end Scalar

namespace ValueType

def fits (t : ValueType) (json : Json) : Bool :=
  (t.ofJson? json).isSome

/-- Removes the items that do not fit the type.  The items start at an index,
and each keeps the index it had. -/
def cleanItems (t : ValueType) (path : Json.Path) : Nat → List Json → List Json × List Mistyped
  | _, [] => ([], [])
  | index, item :: items =>
    let (kept, dropped) := t.cleanItems path (index + 1) items
    if t.fits item then (item :: kept, dropped)
    else (kept, ⟨path ++ [.item index], t.describe⟩ :: dropped)

end ValueType

namespace Kind

def cleanEntries (key value : Scalar) (path : Json.Path) :
    Json.Members → Json.Members × List Mistyped
  | [] => ([], [])
  | (k, json) :: entries =>
    let (kept, dropped) := cleanEntries key value path entries
    if key.keyFits k && (ValueType.scalar value).fits json then ((k, json) :: kept, dropped)
    else (kept, ⟨path ++ [.member k], key.name ++ " => " ++ value.name⟩ :: dropped)

def clean : Kind → Json.Path → Json → Cleaned Json
  | leaf type, _, json => if type.fits json then (some json, []) else (none, [])
  | list type, path, .array items =>
    let (kept, dropped) := type.cleanItems path 0 items
    (some (.array kept), dropped)
  | map key value, path, .object entries =>
    let (kept, dropped) := cleanEntries key value path entries
    (some (.object kept), dropped)
  | _, _, _ => (none, [])

end Kind

namespace Fields

/-- Cleans the member at one key of a field that holds `expected`. -/
def cleanKey (clean : Json.Path → Json → Cleaned Json) (expected : String) (path : Json.Path)
    (key : String) (members : Json.Members) : Json.Members × List Mistyped :=
  match Assoc.find? key members with
  | none => (members, [])
  | some .null => (Assoc.erase key members, [])
  | some json =>
    let here := path ++ [.member key]
    match clean here json with
    | (some kept, dropped) => (Assoc.insert key kept members, dropped)
    | (none, dropped) => (Assoc.erase key members, dropped ++ [⟨here, expected⟩])

def cleanKeys (clean : Json.Path → Json → Cleaned Json) (expected : String) (path : Json.Path) :
    List String → Json.Members → Json.Members × List Mistyped
  | [], members => (members, [])
  | key :: keys, members =>
    let (members, dropped) := cleanKey clean expected path key members
    let (members, more) := cleanKeys clean expected path keys members
    (members, dropped ++ more)

/-- Cleans a nested message, given how its members are cleaned. -/
def cleanNested (clean : Json.Path → Json.Members → Json.Members × List Mistyped)
    (path : Json.Path) : Json → Cleaned Json
  | .object members =>
    let (members, dropped) := clean path members
    (some (.object members), dropped)
  | _ => (none, [])

def cleanTrees (clean : Json.Path → Json.Members → Json.Members × List Mistyped)
    (name : String) (path : Json.Path) : Nat → List Json → List Json × List Mistyped
  | _, [] => ([], [])
  | index, item :: items =>
    let here := path ++ [.item index]
    let (kept, more) := cleanTrees clean name path (index + 1) items
    match cleanNested clean here item with
    | (some item, dropped) => (item :: kept, dropped ++ more)
    | (none, dropped) => (kept, dropped ++ ⟨here, name⟩ :: more)

def cleanNestedList (clean : Json.Path → Json.Members → Json.Members × List Mistyped)
    (name : String) (path : Json.Path) : Json → Cleaned Json
  | .array items =>
    let (items, dropped) := cleanTrees clean name path 0 items
    (some (.array items), dropped)
  | _ => (none, [])

def clean : Fields → Json.Path → Json.Members → Json.Members × List Mistyped
  | nil, _, members => (members, [])
  | plain field kind rest, path, members =>
    let (members, dropped) := cleanKeys kind.clean kind.describe path field.keys members
    let (members, more) := rest.clean path members
    (members, dropped ++ more)
  | nested field message sub rest, path, members =>
    let (members, dropped) :=
      cleanKeys (cleanNested sub.clean) message.name path field.keys members
    let (members, more) := rest.clean path members
    (members, dropped ++ more)
  | nestedList field message sub rest, path, members =>
    let (members, dropped) :=
      cleanKeys (cleanNestedList sub.clean message.name) ("list of " ++ message.name) path
        field.keys members
    let (members, more) := rest.clean path members
    (members, dropped ++ more)

end Fields

namespace Message

/-- The document without the values that do not fit the message, and the
reports on them.  A document that is no object stays as it is. -/
def clean (message : Message) : Json → Json × List Mistyped
  | .object members =>
    let (members, dropped) := message.fields.clean [] members
    (.object members, dropped)
  | json => (json, [])

end Message

end LayeredConfig
