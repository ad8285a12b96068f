import LayeredConfig.Json.Merge
import LayeredConfig.Proofs.Assoc

/-!
# Sorting and merging, seen through lookups

Sorting keeps every member of an object that has no key twice, and merging two
objects is known by what is found under each key (`find?_mergeMembers`).  Both
give lists in key order, so the lookups say everything.
-/

namespace LayeredConfig.Json

/-! ## Sorting -/

def sortMember (member : String × Json) : String × Json := (member.1, member.2.sort)

theorem sortItems_eq_map (items : List Json) : sortItems items = items.map sort := by
  induction items with
  | nil => rw [sortItems, List.map_nil]
  | cons item items ih => rw [sortItems, ih, List.map_cons]

theorem sortMembers_eq_foldl (members acc : Members) :
    sortMembers members acc =
      (members.map sortMember).foldl (fun acc e => Assoc.insert e.1 e.2 acc) acc := by
  induction members generalizing acc with
  | nil => rw [sortMembers, List.map_nil, List.foldl_nil]
  | cons m members ih =>
    obtain ⟨key, json⟩ := m
    rw [sortMembers, ih, List.map_cons, List.foldl_cons]
    rfl

theorem sort_array (items : List Json) : (array items).sort = array (items.map sort) := by
  rw [sort, sortItems_eq_map]

theorem sort_object (members : Members) :
    (object members).sort = object (Assoc.ofList (members.map sortMember)) := by
  rw [sort, sortMembers_eq_foldl]
  rfl

/-! ## Merging -/

/-- What is left of the values at one key of two objects. -/
def over? (below above : Option Json) : Option Json :=
  match above, below with
  | some value, some base => some (mergeValue base value)
  | some value, none => some value
  | none, below => below

@[simp] theorem over?_none_left (above : Option Json) : over? none above = above := by
  cases above with
  | none => rfl
  | some value => rfl

theorem sorted_mergeMembers {base overlay : Members} (h : Assoc.Sorted base) :
    Assoc.Sorted (mergeMembers base overlay) := by
  induction overlay generalizing base with
  | nil =>
    rw [mergeMembers]
    exact h
  | cons m overlay ih =>
    obtain ⟨key, value⟩ := m
    rw [mergeMembers]
    exact ih (h.insert key _)

/-- Merging goes key by key. -/
theorem find?_mergeMembers {overlay : Members} (h : (Assoc.keys overlay).Nodup) (base : Members)
    (key : String) :
    Assoc.find? key (mergeMembers base overlay) =
      over? (Assoc.find? key base) (Assoc.find? key overlay) := by
  induction overlay generalizing base with
  | nil =>
    rw [mergeMembers]
    rfl
  | cons m overlay ih =>
    obtain ⟨k, value⟩ := m
    obtain ⟨hk, hoverlay⟩ := List.nodup_cons.1 h
    rw [mergeMembers, ih hoverlay]
    by_cases hne : key = k
    · subst hne
      rw [Assoc.find?_eq_none_iff.2 hk, Assoc.find?_cons_self, Assoc.find?_insert_self]
      cases Assoc.find? key base with
      | none => rfl
      | some below => rfl
    · rw [Assoc.find?_insert_of_ne hne, Assoc.find?_cons_of_ne hne]

/-- Only an object is merged; anything else replaces what is below. -/
theorem mergeValue_of_ne_object {json : Json} (h : ∀ members, json ≠ object members)
    (base : Json) : mergeValue base json = json := by
  cases json with
  | object members => exact absurd rfl (h members)
  | null | bool | number | string | array =>
    rw [mergeValue]
    exact nofun

theorem over?_some_of_ne_object {json : Json} (h : ∀ members, json ≠ object members)
    (below : Option Json) : over? below (some json) = some json := by
  cases below with
  | none => rfl
  | some base => exact congrArg some (mergeValue_of_ne_object h base)

theorem over?_array (below : Option Json) (items : List Json) :
    over? below (some (array items)) = some (array items) := by
  refine over?_some_of_ne_object ?_ below
  exact fun _ => nofun

/-- Members that are found key by key in two merged objects make up the merge
of the two. -/
theorem ofList_eq_mergeMembers {base upper merged : Members} (hupper : (Assoc.keys upper).Nodup)
    (hbase : (Assoc.keys base).Nodup) (hmerged : (Assoc.keys merged).Nodup)
    (h : ∀ key, Assoc.find? key merged = over? (Assoc.find? key base) (Assoc.find? key upper)) :
    Assoc.ofList merged = mergeMembers (Assoc.ofList base) (Assoc.ofList upper) := by
  refine (Assoc.sorted_ofList merged).eq_of_find?_eq
    (sorted_mergeMembers (Assoc.sorted_ofList base)) fun key => ?_
  rw [find?_mergeMembers (Assoc.sorted_ofList upper).nodup_keys, Assoc.find?_ofList hmerged,
    Assoc.find?_ofList hbase, Assoc.find?_ofList hupper, h]

end LayeredConfig.Json
