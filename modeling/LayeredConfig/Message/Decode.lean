import LayeredConfig.Message.Tree
import LayeredConfig.Json.Path
import LayeredConfig.Json.Reader
import LayeredConfig.Number.Text
import LayeredConfig.Text.Quoted

/-!
# Reading trees from documents

A message is read from an object, whose members are visited in order, or from
an array, whose items are taken for the fields in declaration order.  The first
value that does not fit its field is the error of the whole document.  Members
that belong to no field are not an error: reading collects their paths.

While members come in, a `Draft` keeps for every field whether it was reached,
so that a field given twice, under its two keys, is noticed.
-/

namespace LayeredConfig

inductive Found where
  | null
  | bool (b : Bool)
  | integer (n : Int)
  | float (x : Binary64)
  | string (s : String)
  | sequence
  | map
deriving DecidableEq, Inhabited

namespace Found

def ofJson : Json → Found
  | .null => null
  | .bool b => bool b
  | .number (.int n) => integer n
  | .number (.float x) => float x
  | .string s => string s
  | .array _ => sequence
  | .object _ => map

def describe : Found → String
  | null => "null"
  | bool b => "boolean `" ++ Scalar.bool.toText b ++ "`"
  | integer n => "integer `" ++ toString n ++ "`"
  | float x => "floating point `" ++ x.text ++ "`"
  | string s => "string " ++ Text.Quoted.quoteString s
  | sequence => "sequence"
  | map => "map"

end Found

inductive DecodeError where
  /-- A value of another sort than the one wanted. -/
  | wrongType (found : Found) (wanted : String)
  /-- An integer that has more than 32 bits. -/
  | outOfRange (n : Int)
  /-- A name that no value of the enum has. -/
  | unknownVariant (name : String) (variants : List String)
  /-- An object in place of an enum that has not exactly one member. -/
  | notOneMember
  /-- A second value for a field. -/
  | duplicateField (name : String)
  /-- An array with more items than the message has fields. -/
  | surplusItems (length : Nat)
  /-- The key of an entry that should be a number and does not start or end
  like one. -/
  | keyNotNumber
  /-- The key of an entry that starts like a number and is no 32-bit integer. -/
  | malformedKey
deriving DecidableEq, Inhabited

namespace DecodeError

def describeVariants (variants : List String) : String :=
  let quoted := variants.map fun name => "`" ++ name ++ "`"
  match quoted with
  | [one] => one
  | [one, other] => one ++ " or " ++ other
  | all => "one of " ++ ", ".intercalate all

/-- The text of an error.  The text of a malformed key would point into the
key and is not part of this library. -/
def message? : DecodeError → Option String
  | wrongType found wanted => some ("invalid type: " ++ found.describe ++ ", expected " ++ wanted)
  | outOfRange n => some ("invalid value: integer `" ++ toString n ++ "`, expected i32")
  | unknownVariant name variants =>
    some ("unknown variant `" ++ name ++ "`, expected " ++ describeVariants variants)
  | notOneMember => some "invalid value: map, expected map with a single key"
  | duplicateField name => some ("duplicate field `" ++ name ++ "`")
  | surplusItems length =>
    some ("invalid length " ++ toString length ++ ", expected fewer elements in array")
  | keyNotNumber => some "invalid value: expected key to be a number in quotes"
  | malformedKey => none

end DecodeError

namespace Scalar

/-- What messages call a value of the type. -/
def wanted : Scalar → String
  | string => "a string"
  | bool => "a boolean"
  | int32 => "i32"

def decode (s : Scalar) (json : Json) : Except DecodeError s.Val :=
  match s.ofJson? json with
  | some value => .ok value
  | none =>
    match s, json with
    | int32, .number (.int n) => .error (.outOfRange n)
    | s, json => .error (.wrongType (Found.ofJson json) s.wanted)

/-- Reads a number from the key of a map entry.  The key must be a JSON number
as a whole; a plus sign or a leading zero is refused. -/
def decodeInt32Key (key : String) : Except DecodeError Int32 :=
  match key.toList with
  | [] => .error .keyNotNumber
  | c :: cs =>
    if c.isDigit || c == '-' then
      match Json.Reader.number (c :: cs) with
      | some (.int n, rest) =>
        match int32OfInt? n with
        | some value => if rest.isEmpty then .ok value else .error .keyNotNumber
        | none => .error .malformedKey
      | _ => .error .malformedKey
    else .error .keyNotNumber

def decodeKey : (s : Scalar) → String → Except DecodeError s.Val
  | string, key => .ok key
  | bool, key =>
    match readBool? key with
    | some b => .ok b
    | none => .error (.wrongType (.string key) bool.wanted)
  | int32, key => decodeInt32Key key

end Scalar

namespace EnumType

def decodeName (e : EnumType) (name : String) : Except DecodeError e.Val :=
  match e.ofName? name with
  | some value => .ok value
  | none => .error (.unknownVariant name e.names)

/-- Reads a value: its name, or an object with the name as its only key and
null as the member. -/
def decode (e : EnumType) : Json → Except DecodeError e.Val
  | .string name => e.decodeName name
  | .object [(name, content)] => do
    let value ← e.decodeName name
    match content with
    | .null => .ok value
    | content => .error (.wrongType (Found.ofJson content) "unit")
  | .object _ => .error .notOneMember
  | json => .error (.wrongType (Found.ofJson json) "string or map")

end EnumType

namespace ValueType

def decode : (t : ValueType) → Json → Except DecodeError t.Val
  | scalar s, json => s.decode json
  | enum e, json => e.decode json

end ValueType

namespace Kind

def decodeEntry (key value : Scalar) (member : String × Json) :
    Except DecodeError (key.Val × value.Val) := do
  let k ← key.decodeKey member.1
  let v ← value.decode member.2
  .ok (k, v)

/-- Reads what a field holds.  Null unsets a single value. -/
def decode : (kind : Kind) → Json → Except DecodeError kind.Slot
  | leaf _, .null => .ok none
  | leaf type, json => do .ok (some (← type.decode json))
  | list type, .array items => items.mapM type.decode
  | list _, json => .error (.wrongType (Found.ofJson json) "a sequence")
  | map key value, .object members => do
    .ok (SortedMap.ofList (← members.mapM (decodeEntry key value)))
  | map _ _, json => .error (.wrongType (Found.ofJson json) "a map")

end Kind

/-- A tree in the making: what was read for the fields that were reached. -/
def Draft : Fields → Type
  | .nil => Unit
  | .plain _ kind rest => Option kind.Slot × Draft rest
  | .nested _ _ sub rest => Option (Option (Tree sub)) × Draft rest
  | .nestedList _ _ sub rest => Option (List (Tree sub)) × Draft rest

namespace Draft

def blank : (fields : Fields) → Draft fields
  | .nil => ()
  | .plain _ _ rest => (none, blank rest)
  | .nested _ _ _ rest => (none, blank rest)
  | .nestedList _ _ _ rest => (none, blank rest)

/-- The tree of a draft; fields that were not reached are unset. -/
def finish : (fields : Fields) → Draft fields → Tree fields
  | .nil, _ => ()
  | .plain _ kind rest, (slot, draft) => (slot.getD kind.unset, finish rest draft)
  | .nested _ _ _ rest, (slot, draft) => (slot.getD none, finish rest draft)
  | .nestedList _ _ _ rest, (slot, draft) => (slot.getD [], finish rest draft)

end Draft

/-- Something read from a document, and the paths of the members that belong
to no field. -/
abbrev Noted (α : Type) := α × List Json.Path

structure Decoder (fields : Fields) where
  /-- Reads the member with a key into a draft. -/
  member : Json.Path → String → Json → Draft fields → Except DecodeError (Noted (Draft fields))
  /-- Reads the fields from the items of an array, which start at an index.
  Gives the items left over as well. -/
  items : Json.Path → Nat → List Json → Except DecodeError (Noted (Tree fields × List Json))

namespace Decoder

variable {fields : Fields}

def members (decoder : Decoder fields) (path : Json.Path) :
    Json.Members → Draft fields → Except DecodeError (Noted (Draft fields))
  | [], draft => .ok (draft, [])
  | (key, json) :: members, draft => do
    let (draft, unknown) ← decoder.member path key json draft
    let (draft, more) ← decoder.members path members draft
    .ok (draft, unknown ++ more)

def tree (decoder : Decoder fields) (name : String) (path : Json.Path) :
    Json → Except DecodeError (Noted (Tree fields))
  | .object members => do
    let (draft, unknown) ← decoder.members path members (Draft.blank fields)
    .ok (draft.finish, unknown)
  | .array items => do
    let ((tree, surplus), unknown) ← decoder.items path 0 items
    if surplus.isEmpty then .ok (tree, unknown) else .error (.surplusItems items.length)
  | json => .error (.wrongType (Found.ofJson json) ("struct " ++ name))

/-- Reads a nested message, which null unsets.  The paths of what is inside are
marked. -/
def optional (decoder : Decoder fields) (name : String) (path : Json.Path) :
    Json → Except DecodeError (Noted (Option (Tree fields)))
  | .null => .ok (none, [])
  | json => do
    let (tree, unknown) ← decoder.tree name (path ++ [.present]) json
    .ok (some tree, unknown)

def trees (decoder : Decoder fields) (name : String) (path : Json.Path) :
    Nat → List Json → Except DecodeError (Noted (List (Tree fields)))
  | _, [] => .ok ([], [])
  | index, json :: items => do
    let (tree, unknown) ← decoder.tree name (path ++ [.item index]) json
    let (trees, more) ← decoder.trees name path (index + 1) items
    .ok (tree :: trees, unknown ++ more)

def list (decoder : Decoder fields) (name : String) (path : Json.Path) :
    Json → Except DecodeError (Noted (List (Tree fields)))
  | .array items => decoder.trees name path 0 items
  | json => .error (.wrongType (Found.ofJson json) "a sequence")

def plain (kind : Kind) (_ : Json.Path) (json : Json) : Except DecodeError (Noted kind.Slot) := do
  .ok (← kind.decode json, [])

/-- The decoder without fields: every member is unknown. -/
def nil : Decoder .nil where
  member path key _ _ := .ok ((), [path ++ [.member key]])
  items _ _ items := .ok (((), items), [])

/-- Reads a member into the slot of `field` or passes it on to the other
fields.  A slot is filled once. -/
def memberCons {α : Type} (field : Label) (read : Json.Path → Json → Except DecodeError (Noted α))
    (rest : Decoder fields) (path : Json.Path) (key : String) (json : Json) :
    Option α × Draft fields → Except DecodeError (Noted (Option α × Draft fields))
  | (slot, draft) =>
    if field.keys.contains key then
      match slot with
      | some _ => .error (.duplicateField field.name)
      | none => do
        let (value, unknown) ← read (path ++ [.member key]) json
        .ok ((some value, draft), unknown)
    else do
      let (draft, unknown) ← rest.member path key json draft
      .ok ((slot, draft), unknown)

/-- Reads the first item into the first slot and the others into the other
fields.  Without items everything is unset. -/
def itemsCons {α : Type} (unset : α) (read : Json.Path → Json → Except DecodeError (Noted α))
    (rest : Decoder fields) (path : Json.Path) (index : Nat) :
    List Json → Except DecodeError (Noted ((α × Tree fields) × List Json))
  | [] => .ok (((unset, Tree.empty fields), []), [])
  | json :: items => do
    let (value, unknown) ← read (path ++ [.item index]) json
    let ((tree, surplus), more) ← rest.items path (index + 1) items
    .ok (((value, tree), surplus), unknown ++ more)

def ofFields : (fields : Fields) → Decoder fields
  | .nil => nil
  | .plain field kind rest =>
    { member := memberCons field (plain kind) (ofFields rest)
      items := itemsCons kind.unset (plain kind) (ofFields rest) }
  | .nested field message sub rest =>
    { member := memberCons field ((ofFields sub).optional message.name) (ofFields rest)
      items := itemsCons none ((ofFields sub).optional message.name) (ofFields rest) }
  | .nestedList field message sub rest =>
    { member := memberCons field ((ofFields sub).list message.name) (ofFields rest)
      items := itemsCons [] ((ofFields sub).list message.name) (ofFields rest) }

end Decoder

namespace Message

/-- Reads a tree of the message, with the paths of all unknown members. -/
def decode (message : Message) (json : Json) : Except DecodeError (Noted (Tree message.fields)) :=
  (Decoder.ofFields message.fields).tree message.label.name [] json

end Message

end LayeredConfig
