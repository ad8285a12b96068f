import LayeredConfig.Proofs.Assoc
import LayeredConfig.SortedMap

/-!
# Looking up in finite maps

What `find?` gives after each operation on a map.  A map is known by its
lookups (`ext_find?`), so these equations say all there is to say: filling
prefers the entries of the first map, merging those of the second.
-/

namespace LayeredConfig.SortedMap

open Assoc

variable {α β : Type} [Ord α] [Std.TransOrd α] [Std.LawfulEqOrd α]

theorem ext_find? {m n : SortedMap α β} (h : ∀ key, m.find? key = n.find? key) : m = n :=
  ext (m.sorted.eq_of_find?_eq n.sorted h)

omit [Std.TransOrd α] in
theorem nodup_keys (m : SortedMap α β) : (keys m.entries).Nodup := m.sorted.nodup_keys

omit [Std.TransOrd α] [Std.LawfulEqOrd α] in
@[simp] theorem find?_empty (key : α) : (empty : SortedMap α β).find? key = none := rfl

omit [Std.TransOrd α] [Std.LawfulEqOrd α] in
theorem isEmpty_iff {m : SortedMap α β} : m.isEmpty = true ↔ m = empty := by
  constructor
  · exact fun h => ext (List.isEmpty_iff.1 h)
  · rintro rfl
    rfl

@[simp] theorem find?_insert_self (m : SortedMap α β) (key : α) (value : β) :
    (m.insert key value).find? key = some value :=
  Assoc.find?_insert_self key value m.entries

theorem find?_insert_of_ne (m : SortedMap α β) {key k : α} (h : k ≠ key) (value : β) :
    (m.insert key value).find? k = m.find? k :=
  Assoc.find?_insert_of_ne h value m.entries

theorem find?_insertNew (m : SortedMap α β) (key : α) (value : β) (k : α) :
    (m.insertNew key value).find? k = (m.find? k).or (Assoc.find? k [(key, value)]) := by
  by_cases hk : k = key
  · subst hk
    rw [find?_cons_self, insertNew]
    cases h : m.find? k with
    | some v => simp [h]
    | none => simp
  · rw [find?_cons_of_ne hk, Assoc.find?, Option.or_none, insertNew]
    cases m.find? key with
    | some v => rfl
    | none => exact m.find?_insert_of_ne hk value

/-- Filling keeps the entries of the first map and adds the others of the
second. -/
theorem find?_fillFrom (m n : SortedMap α β) (key : α) :
    (m.fillFrom n).find? key = (m.find? key).or (n.find? key) := by
  have step : ∀ (entries : List (α × β)) (acc : SortedMap α β),
      (entries.foldl (fun acc e => acc.insertNew e.1 e.2) acc).find? key =
        (acc.find? key).or (Assoc.find? key entries) := by
    intro entries
    induction entries with
    | nil => simp [Assoc.find?]
    | cons e entries ih =>
      intro acc
      obtain ⟨k, v⟩ := e
      rw [List.foldl_cons, ih, find?_insertNew, Option.or_assoc, ← find?_append]
      rfl
  exact step n.entries m

/-- Merging keeps the entries of the second map and adds the others of the
first. -/
theorem find?_merge (m upper : SortedMap α β) (key : α) :
    (m.merge upper).find? key = (upper.find? key).or (m.find? key) := by
  have step : ∀ (entries : List (α × β)) (acc : SortedMap α β), (keys entries).Nodup →
      (entries.foldl (fun acc e => acc.insert e.1 e.2) acc).find? key =
        (Assoc.find? key entries).or (acc.find? key) := by
    intro entries
    induction entries with
    | nil => simp [Assoc.find?]
    | cons e entries ih =>
      intro acc hkeys
      obtain ⟨k, v⟩ := e
      obtain ⟨hk, hrest⟩ := List.nodup_cons.1 hkeys
      rw [List.foldl_cons, ih _ hrest]
      by_cases hne : key = k
      · subst hne
        rw [find?_eq_none_iff.2 hk, find?_cons_self, find?_insert_self]
        rfl
      · rw [find?_cons_of_ne hne, find?_insert_of_ne _ hne]
  exact step upper.entries m upper.nodup_keys

theorem empty_merge (upper : SortedMap α β) : (empty : SortedMap α β).merge upper = upper := by
  refine ext_find? fun key => ?_
  rw [find?_merge, find?_empty, Option.or_none]

theorem isEmpty_of_isEmpty_merge {m upper : SortedMap α β} (h : (m.merge upper).isEmpty = true) :
    upper.isEmpty = true := by
  rw [isEmpty_iff] at h ⊢
  refine ext_find? fun key => ?_
  have hkey := m.find?_merge upper key
  rw [h, find?_empty] at hkey
  exact (Option.or_eq_none_iff.1 hkey.symm).1

theorem ofList_eq_of_perm {m : SortedMap α β} {entries : List (α × β)}
    (h : entries.Perm m.entries) : ofList entries = m := by
  have hkeys : (keys entries).Nodup := (h.map _).nodup_iff.2 m.nodup_keys
  exact ext ((sorted_ofList entries).eq_of_perm m.sorted ((ofList_perm hkeys).trans h))

end LayeredConfig.SortedMap
