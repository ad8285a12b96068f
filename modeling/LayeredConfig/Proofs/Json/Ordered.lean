import LayeredConfig.Json.Basic
import LayeredConfig.Proofs.Assoc

/-!
# Ordered documents

A document is ordered if every object in it lists its members in ascending key
order.  Changing one member of an object keeps this.
-/

namespace LayeredConfig.Json

mutual

def decideOrdered : (json : Json) → Decidable json.Ordered
  | array items => decideOrderedItems items
  | object members =>
    have := decideOrderedMembers members
    inferInstanceAs (Decidable (List.Pairwise _ members ∧ OrderedMembers members))
  | null | bool _ | number _ | string _ => isTrue trivial

def decideOrderedItems : (items : List Json) → Decidable (OrderedItems items)
  | [] => isTrue trivial
  | item :: items =>
    have := decideOrdered item
    have := decideOrderedItems items
    inferInstanceAs (Decidable (Ordered item ∧ OrderedItems items))

def decideOrderedMembers : (members : Members) → Decidable (OrderedMembers members)
  | [] => isTrue trivial
  | (_, value) :: members =>
    have := decideOrdered value
    have := decideOrderedMembers members
    inferInstanceAs (Decidable (Ordered value ∧ OrderedMembers members))

end

instance instDecidableOrdered (json : Json) : Decidable json.Ordered := decideOrdered json

theorem orderedItems_iff {items : List Json} :
    OrderedItems items ↔ ∀ item ∈ items, item.Ordered := by
  induction items with
  | nil => simp [OrderedItems]
  | cons item items ih => simp [OrderedItems, ih]

theorem orderedMembers_iff {members : Members} :
    OrderedMembers members ↔ ∀ m ∈ members, m.2.Ordered := by
  induction members with
  | nil => simp [OrderedMembers]
  | cons m members ih =>
    obtain ⟨key, value⟩ := m
    simp [OrderedMembers, ih]

theorem ordered_array_iff {items : List Json} :
    (array items).Ordered ↔ ∀ item ∈ items, item.Ordered := by
  rw [Ordered, orderedItems_iff]

theorem ordered_object_iff {members : Members} :
    (object members).Ordered ↔ Assoc.Sorted members ∧ ∀ m ∈ members, m.2.Ordered := by
  rw [Ordered, orderedMembers_iff]

theorem ordered_array_nil : (array []).Ordered := ordered_array_iff.2 nofun

theorem ordered_object_nil : (object []).Ordered :=
  ordered_object_iff.2 ⟨Assoc.sorted_nil, nofun⟩

theorem ordered_insert {members : Members} {value : Json} (h : (object members).Ordered)
    (key : String) (hvalue : value.Ordered) :
    (object (Assoc.insert key value members)).Ordered := by
  obtain ⟨hsorted, hmembers⟩ := ordered_object_iff.1 h
  refine ordered_object_iff.2 ⟨hsorted.insert key value, fun m hm => ?_⟩
  rcases Assoc.mem_of_mem_insert hm with rfl | hm
  · exact hvalue
  · exact hmembers m hm

theorem ordered_erase {members : Members} (h : (object members).Ordered) (key : String) :
    (object (Assoc.erase key members)).Ordered := by
  obtain ⟨hsorted, hmembers⟩ := ordered_object_iff.1 h
  exact ordered_object_iff.2 ⟨hsorted.erase key, fun m hm =>
    hmembers m ((Assoc.erase_sublist key members).subset hm)⟩

end LayeredConfig.Json
