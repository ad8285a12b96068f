import LayeredConfig.Json.Reader
import LayeredConfig.Proofs.Json.Ordered

/-!
# Documents that were read are ordered

The reader adds the members of an object one by one, each at its place.
-/

namespace LayeredConfig.Json.Reader

/-- What the reader gives back with some fuel is ordered, if what it was given to
add to is. -/
structure KeepsOrder (fuel : Nat) : Prop where
  value : ∀ {depth cs json rest}, value fuel depth cs = some (json, rest) → json.Ordered
  items : ∀ {depth cs acc all rest}, (array acc).Ordered →
    items fuel depth cs acc = some (all, rest) → (array all).Ordered
  members : ∀ {depth cs acc all rest}, (object acc).Ordered →
    members fuel depth cs acc = some (all, rest) → (object all).Ordered

theorem ordered_value_succ {fuel depth : Nat} {cs rest : List Char} {json : Json}
    (hkeeps : KeepsOrder fuel) (h : value (fuel + 1) depth cs = some (json, rest)) :
    json.Ordered := by
  rw [value] at h
  split at h
  case h_5 =>
    split at h
    · exact nomatch h
    · split at h
      · obtain ⟨rfl, -⟩ := Prod.mk.inj (Option.some.inj h)
        exact ordered_array_nil
      · obtain ⟨⟨all, left⟩, hall, h⟩ := Option.bind_eq_some_iff.1 h
        obtain ⟨rfl, -⟩ := Prod.mk.inj (Option.some.inj h)
        exact hkeeps.items ordered_array_nil hall
  case h_6 =>
    split at h
    · exact nomatch h
    · split at h
      · obtain ⟨rfl, -⟩ := Prod.mk.inj (Option.some.inj h)
        exact ordered_object_nil
      · obtain ⟨⟨all, left⟩, hall, h⟩ := Option.bind_eq_some_iff.1 h
        obtain ⟨rfl, -⟩ := Prod.mk.inj (Option.some.inj h)
        exact hkeeps.members ordered_object_nil hall
  -- All other characters begin documents without parts.
  all_goals
    obtain ⟨left, -, h⟩ := Option.bind_eq_some_iff.1 h
    obtain ⟨rfl, -⟩ := Prod.mk.inj (Option.some.inj h)
    trivial

theorem ordered_items_succ {fuel depth : Nat} {cs rest : List Char} {acc all : List Json}
    (hkeeps : KeepsOrder fuel) (hacc : (array acc).Ordered)
    (h : items (fuel + 1) depth cs acc = some (all, rest)) : (array all).Ordered := by
  rw [items] at h
  obtain ⟨⟨item, left⟩, hitem, h⟩ := Option.bind_eq_some_iff.1 h
  have hmore : (array (item :: acc)).Ordered :=
    ordered_array_iff.2 (List.forall_mem_cons.2 ⟨hkeeps.value hitem, ordered_array_iff.1 hacc⟩)
  dsimp only at h
  split at h
  · exact hkeeps.items hmore h
  · obtain ⟨rfl, -⟩ := Prod.mk.inj (Option.some.inj h)
    rw [ordered_array_iff] at hmore ⊢
    exact fun i hi => hmore i (List.mem_reverse.1 hi)
  · exact nomatch h

theorem ordered_members_succ {fuel depth : Nat} {cs rest : List Char} {acc all : Members}
    (hkeeps : KeepsOrder fuel) (hacc : (object acc).Ordered)
    (h : members (fuel + 1) depth cs acc = some (all, rest)) : (object all).Ordered := by
  rw [members] at h
  split at h
  · obtain ⟨⟨key, left⟩, -, h⟩ := Option.bind_eq_some_iff.1 h
    dsimp only at h
    split at h
    · obtain ⟨⟨item, left⟩, hitem, h⟩ := Option.bind_eq_some_iff.1 h
      have hmore := ordered_insert hacc key (hkeeps.value hitem)
      dsimp only at h
      split at h
      · exact hkeeps.members hmore h
      · obtain ⟨rfl, -⟩ := Prod.mk.inj (Option.some.inj h)
        exact hmore
      · exact nomatch h
    · exact nomatch h
  · exact nomatch h

theorem keepsOrder (fuel : Nat) : KeepsOrder fuel := by
  induction fuel with
  | zero =>
    refine ⟨fun h => ?_, fun _ h => ?_, fun _ h => ?_⟩
    · rw [value] at h
      exact nomatch h
    · rw [items] at h
      exact nomatch h
    · rw [members] at h
      exact nomatch h
  | succ fuel ih => exact ⟨ordered_value_succ ih, ordered_items_succ ih, ordered_members_succ ih⟩

end LayeredConfig.Json.Reader

namespace LayeredConfig.Json

theorem ordered_of_parse? {text : String} {json : Json} (h : parse? text = some json) :
    json.Ordered := by
  unfold parse? Reader.document at h
  obtain ⟨⟨read, rest⟩, hread, h⟩ := Option.bind_eq_some_iff.1 h
  dsimp only at h
  split at h
  · obtain rfl := Option.some.inj h
    exact (Reader.keepsOrder _).value hread
  · exact nomatch h

end LayeredConfig.Json
