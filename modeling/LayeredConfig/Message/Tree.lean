import LayeredConfig.Message.Fields
import LayeredConfig.SortedMap

/-!
# Configuration trees

A tree holds what is known about the settings of a message.  Every setting may
be unset: a single value and a nested message are optional, and lists and maps
are unset while they are empty.  The type of a tree is computed from the fields
of its message, so a tree always fits them.
-/

namespace LayeredConfig

abbrev Kind.Slot : Kind → Type
  | leaf type => Option type.Val
  | list type => List type.Val
  | map key value => SortedMap key.Val value.Val

namespace Kind

instance instDecidableEqSlot : (kind : Kind) → DecidableEq kind.Slot
  | leaf type => inferInstanceAs (DecidableEq (Option type.Val))
  | list type => inferInstanceAs (DecidableEq (List type.Val))
  | map key value => inferInstanceAs (DecidableEq (SortedMap key.Val value.Val))

def unset : (kind : Kind) → kind.Slot
  | leaf _ => none
  | list _ => []
  | map _ _ => SortedMap.empty

end Kind

def Tree : Fields → Type
  | .nil => Unit
  | .plain _ kind rest => kind.Slot × Tree rest
  | .nested _ _ sub rest => Option (Tree sub) × Tree rest
  | .nestedList _ _ sub rest => List (Tree sub) × Tree rest

namespace Tree

def empty : (fields : Fields) → Tree fields
  | .nil => ()
  | .plain _ kind rest => (kind.unset, empty rest)
  | .nested _ _ _ rest => (none, empty rest)
  | .nestedList _ _ _ rest => ([], empty rest)

instance instInhabited (fields : Fields) : Inhabited (Tree fields) := ⟨empty fields⟩

end Tree

end LayeredConfig
