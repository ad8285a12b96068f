import LayeredConfig.Message.Tree

/-!
# Places of fields and ways to messages

A `Place` is the position of a field in a chain, and `Tree.slot` is what a tree
holds there.  A `Way` is a chain of nested messages, each named by the place of
its field in the message before.  Following a way in a tree (`Way.reach?`)
stops where a nested message is absent; then every field behind it is unset
(`Place.held`).
-/

namespace LayeredConfig

namespace Content

/-- What a tree holds for a field of the given content. -/
abbrev Slot : Content → Type
  | plain kind => kind.Slot
  | nested message => Option (Tree message.fields)
  | nestedList message => List (Tree message.fields)

def unset : (content : Content) → content.Slot
  | plain kind => kind.unset
  | nested _ => none
  | nestedList _ => []

end Content

/-- The position of a field in a chain. -/
inductive Place : Fields → Field → Type
  | plain (field : Label) (kind : Kind) (rest : Fields) :
    Place (.plain field kind rest) ⟨field, .plain kind⟩
  | nested (field message : Label) (sub rest : Fields) :
    Place (.nested field message sub rest) ⟨field, .nested ⟨message, sub⟩⟩
  | nestedList (field message : Label) (sub rest : Fields) :
    Place (.nestedList field message sub rest) ⟨field, .nestedList ⟨message, sub⟩⟩
  | afterPlain {field : Label} {kind : Kind} {rest : Fields} {target : Field}
    (place : Place rest target) : Place (.plain field kind rest) target
  | afterNested {field message : Label} {sub rest : Fields} {target : Field}
    (place : Place rest target) : Place (.nested field message sub rest) target
  | afterNestedList {field message : Label} {sub rest : Fields} {target : Field}
    (place : Place rest target) : Place (.nestedList field message sub rest) target

namespace Place

variable {fields : Fields} {field : Field}

theorem mem_toList (place : Place fields field) : field ∈ fields.toList := by
  induction place with
  | plain | nested | nestedList => exact List.mem_cons_self
  | afterPlain _ ih | afterNested _ ih | afterNestedList _ ih => exact List.mem_cons_of_mem _ ih

theorem nonempty_iff_mem_toList : Nonempty (Place fields field) ↔ field ∈ fields.toList := by
  refine ⟨fun ⟨place⟩ => place.mem_toList, fun h => ?_⟩
  induction fields with
  | nil => exact nomatch h
  | plain label kind rest ih =>
    rcases List.mem_cons.1 h with rfl | h
    · exact ⟨plain label kind rest⟩
    · obtain ⟨place⟩ := ih h
      exact ⟨afterPlain place⟩
  | nested label message sub rest _ ih =>
    rcases List.mem_cons.1 h with rfl | h
    · exact ⟨nested label message sub rest⟩
    · obtain ⟨place⟩ := ih h
      exact ⟨afterNested place⟩
  | nestedList label message sub rest _ ih =>
    rcases List.mem_cons.1 h with rfl | h
    · exact ⟨nestedList label message sub rest⟩
    · obtain ⟨place⟩ := ih h
      exact ⟨afterNestedList place⟩

end Place

namespace Tree

def slot : {fields : Fields} → {field : Field} → Place fields field → Tree fields →
    field.content.Slot
  | _, _, .plain _ _ _, tree => tree.1
  | _, _, .nested _ _ _ _, tree => tree.1
  | _, _, .nestedList _ _ _ _, tree => tree.1
  | _, _, .afterPlain place, tree => slot place tree.2
  | _, _, .afterNested place, tree => slot place tree.2
  | _, _, .afterNestedList place, tree => slot place tree.2

@[simp] theorem slot_empty {fields : Fields} {field : Field} (place : Place fields field) :
    (empty fields).slot place = field.content.unset := by
  induction place with
  | plain | nested | nestedList => rfl
  | afterPlain _ ih | afterNested _ ih | afterNestedList _ ih => exact ih

end Tree

/-- What a tree holds at a place, where the tree itself may be absent. -/
def Place.held {fields : Fields} {field : Field} (place : Place fields field)
    (tree : Option (Tree fields)) : field.content.Slot :=
  tree.elim field.content.unset fun tree => tree.slot place

@[simp] theorem Place.held_none {fields : Fields} {field : Field} (place : Place fields field) :
    place.held none = field.content.unset := rfl

@[simp] theorem Place.held_some {fields : Fields} {field : Field} (place : Place fields field)
    (tree : Tree fields) : place.held (some tree) = tree.slot place := rfl

theorem Place.slot_getD_empty {fields : Fields} {field : Field} (place : Place fields field)
    (tree : Option (Tree fields)) :
    (tree.getD (Tree.empty fields)).slot place = place.held tree := by
  cases tree with
  | none => exact Tree.slot_empty place
  | some tree => rfl

/-- A way from a message to itself or to one nested in it, at any depth. -/
inductive Way : Fields → Fields → Type
  | stay (fields : Fields) : Way fields fields
  | into {fields target : Fields} (field : Label) (message : Message)
    (place : Place fields ⟨field, .nested message⟩) (way : Way message.fields target) :
    Way fields target

namespace Way

/-- The part of a tree that a way leads to, if all messages on the way are
present. -/
def reach? : {fields target : Fields} → Way fields target → Tree fields → Option (Tree target)
  | _, _, stay _, tree => some tree
  | _, _, into _ _ place way, tree => (tree.slot place : Option _).bind way.reach?

/-- The stem of the variables of the message at the end of a way. -/
def stem : {fields target : Fields} → Way fields target → String → String
  | _, _, stay _, start => start
  | _, _, into field _ _ way, start => way.stem (start ++ field.envSuffix ++ "_")

@[simp] theorem reach?_stay {fields : Fields} (tree : Tree fields) :
    (stay fields).reach? tree = some tree := rfl

theorem reach?_into {fields target : Fields} (field : Label) (message : Message)
    (place : Place fields ⟨field, .nested message⟩) (way : Way message.fields target)
    (tree : Tree fields) :
    (into field message place way).reach? tree =
      (tree.slot place : Option (Tree message.fields)).bind way.reach? := rfl

theorem getD_reach?_empty {fields target : Fields} (way : Way fields target) :
    (way.reach? (Tree.empty fields)).getD (Tree.empty target) = Tree.empty target := by
  cases way with
  | stay => rfl
  | into field message place way =>
    rw [reach?_into, Tree.slot_empty]
    rfl

end Way

end LayeredConfig
