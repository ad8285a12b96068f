import LayeredConfig.Assoc
import LayeredConfig.Number.Binary64

/-!
# JSON documents

A document is a tree of scalars, arrays and objects.  An object is the list of
its members.  Documents that were read, merged or built member by member keep
the members of every object in ascending key order with one member per key
(`Json.Ordered`); `Json.sort` brings any other document into that form.
-/

namespace LayeredConfig

/-- A JSON number.  A number without fraction and exponent is an integer as
long as it fits 64 bits, signed or unsigned. -/
inductive Json.Number where
  | int (n : Int)
  | float (x : Binary64)
deriving DecidableEq, Inhabited

inductive Json where
  | null
  | bool (b : Bool)
  | number (n : Json.Number)
  | string (s : String)
  | array (items : List Json)
  | object (members : List (String × Json))
deriving Inhabited

namespace Json

abbrev Members := List (String × Json)

def get? (key : String) : Json → Option Json
  | object members => Assoc.find? key members
  | _ => none

def isNull : Json → Bool
  | null => true
  | _ => false

mutual

/-- The same document with the members of every object in key order.  Of two
members with one key the last stays. -/
def sort : Json → Json
  | array items => array (sortItems items)
  | object members => object (sortMembers members [])
  | json => json

def sortItems : List Json → List Json
  | [] => []
  | item :: items => sort item :: sortItems items

def sortMembers : Members → Members → Members
  | [], acc => acc
  | (key, value) :: members, acc => sortMembers members (Assoc.insert key (sort value) acc)

end

mutual

/-- Every object in the document lists its members in ascending key order. -/
def Ordered : Json → Prop
  | array items => OrderedItems items
  | object members => Assoc.Sorted members ∧ OrderedMembers members
  | _ => True

def OrderedItems : List Json → Prop
  | [] => True
  | item :: items => Ordered item ∧ OrderedItems items

def OrderedMembers : Members → Prop
  | [] => True
  | (_, value) :: members => Ordered value ∧ OrderedMembers members

end

end Json

end LayeredConfig
