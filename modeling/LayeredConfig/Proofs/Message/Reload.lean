import LayeredConfig.Proofs.Json.Written
import LayeredConfig.Proofs.Message.RoundTrip
import LayeredConfig.Proofs.Message.Taken

/-!
# Trees written as text

What the document of a tree has to satisfy so that its text leads back to the
tree: its members are taken by the fields they come from, its numbers are of 32
bits, and it nests no deeper than the fields do (`Fields.depth`).
-/

namespace LayeredConfig

namespace Kind

theorem fits_sort_of_toJson? {kind : Kind} {slot : kind.Slot} {json : Json}
    (h : kind.toJson? slot = some json) : kind.Fits json.sort := by
  cases kind with
  | leaf type =>
    obtain ⟨v, rfl, rfl⟩ := Option.map_eq_some_iff.1 h
    simp [Fits, type.sort_toJson, ValueType.fits, type.ofJson?_toJson]
  | list type =>
    rw [toJson?] at h
    split at h
    · cases h
    · obtain rfl := Option.some.inj h
      rw [Json.sort_array, Fits, Json.ArrayOf]
      simp [type.sort_toJson, ValueType.fits, type.ofJson?_toJson]
  | map key value =>
    rw [toJson?] at h
    split at h
    · cases h
    · obtain rfl := Option.some.inj h
      have hkeys : (Assoc.keys (slot.entries.map (entryMember key value))).Nodup :=
        nodup_keys_map_entryMember slot.nodup_keys
      rw [Json.sort_object, map_sortMember_entries, Fits, Json.ObjectOf]
      intro e he
      obtain ⟨entry, -, rfl⟩ := List.mem_map.1 ((Assoc.ofList_perm hkeys).subset he)
      simp [entryFits, entryMember, Scalar.keyFits, key.ofText?_toText, ValueType.fits,
        ValueType.ofJson?, value.ofJson?_toJson]

end Kind

/-! ## The members of a tree are taken -/

namespace Tree

variable {fields rest sub : Fields}

theorem mem_memberOf_iff {field : Label} {doc : Option Json} {m : String × Json} :
    m ∈ memberOf field doc ↔ m.1 = field.name ∧ doc = some m.2 := by
  obtain ⟨key, json⟩ := m
  cases doc with
  | none => simp
  | some doc => simp [eq_comm]

/-- The member of a field goes to that field, and the others to the fields after it. -/
theorem takes_memberOf_append {field : Label} {doc : Option Json} {members : Json.Members}
    {P : Json → Prop} (hdoc : ∀ json, doc = some json → P json)
    (hkeys : ∀ key ∈ Assoc.keys members, key ∉ field.keys)
    (hrest : ∀ m ∈ members, rest.Takes m) :
    ∀ m ∈ memberOf field doc ++ members,
      if m.1 ∈ field.keys then P m.2 else rest.Takes m := by
  intro m hm
  rcases List.mem_append.1 hm with hm | hm
  · obtain ⟨hname, hjson⟩ := mem_memberOf_iff.1 hm
    have hkey : m.1 ∈ field.keys := hname ▸ field.name_mem_keys
    rw [if_pos hkey]
    exact hdoc m.2 hjson
  · rw [if_neg (hkeys m.1 (Assoc.mem_keys_of_mem hm))]
    exact hrest m hm

theorem takes_sortedMembers (hdistinct : fields.Distinct) {tree : Tree fields}
    (h : Addressed fields tree) : ∀ m ∈ sortedMembers fields tree, fields.Takes m := by
  have hinner : ∀ {sub : Fields}, sub.Distinct → ∀ t : Tree sub,
      (∀ m ∈ sortedMembers sub t, sub.Takes m) →
        (Json.object (Assoc.ofList (sortedMembers sub t))).ObjectOf fun members =>
          ∀ m ∈ members, sub.Takes m := by
    intro sub hsub t htakes m hm
    exact htakes m ((ofList_sortedMembers_perm hsub t).subset hm)
  induction fields with
  | nil => exact nofun
  | plain field kind rest ih =>
    obtain ⟨slot, tree⟩ := tree
    obtain ⟨hkeys, hrest⟩ := h
    rw [sortedMembers_plain]
    refine takes_memberOf_append ?_ hkeys (ih hdistinct.2 hrest)
    intro json hjson
    obtain ⟨doc, hdoc, rfl⟩ := Option.map_eq_some_iff.1 hjson
    exact Kind.fits_sort_of_toJson? hdoc
  | nested field message sub rest ihsub ih =>
    obtain ⟨slot, tree⟩ := tree
    obtain ⟨hkeys, haddressed, hrest⟩ := h
    obtain ⟨-, hsub, hdistinct⟩ := hdistinct
    rw [sortedMembers_nested]
    refine takes_memberOf_append ?_ hkeys (ih hdistinct hrest)
    intro json hjson
    obtain ⟨t, rfl, rfl⟩ := Option.map_eq_some_iff.1 hjson
    exact hinner hsub t (ihsub hsub (haddressed t rfl))
  | nestedList field message sub rest ihsub ih =>
    obtain ⟨slot, tree⟩ := tree
    obtain ⟨hkeys, haddressed, hrest⟩ := h
    obtain ⟨-, hsub, hdistinct⟩ := hdistinct
    rw [sortedMembers_nestedList]
    refine takes_memberOf_append ?_ hkeys (ih hdistinct hrest)
    intro json hjson
    rw [nestedListDoc] at hjson
    split at hjson
    · cases hjson
    · obtain rfl := Option.some.inj hjson
      intro item hitem
      obtain ⟨t, ht, rfl⟩ := List.mem_map.1 hitem
      exact hinner hsub t (ihsub hsub (haddressed t ht))

end Tree

/-! ## The text of a tree can be read -/

namespace Kind

def depth : Kind → Nat
  | leaf _ => 0
  | list _ => 1
  | map _ _ => 1

end Kind

namespace Fields

/-- The levels that the document of a tree can have. -/
def depth : Fields → Nat
  | nil => 1
  | plain _ kind rest => max (kind.depth + 1) rest.depth
  | nested _ _ sub rest => max (sub.depth + 1) rest.depth
  | nestedList _ _ sub rest => max (sub.depth + 2) rest.depth

theorem depth_pos (fields : Fields) : 0 < fields.depth := by
  induction fields with
  | nil => exact Nat.one_pos
  | plain field kind rest ih => exact Nat.lt_of_lt_of_le ih (Nat.le_max_right _ _)
  | nested field message sub rest _ ih | nestedList field message sub rest _ ih =>
    exact Nat.lt_of_lt_of_le ih (Nat.le_max_right _ _)

end Fields

open Json (Writable)

theorem Scalar.writable_toJson (s : Scalar) (v : s.Val) (depth : Nat) :
    Writable depth (s.toJson v) := by
  cases s with
  | string => exact .string v
  | bool => exact .bool v
  | int32 =>
    obtain ⟨hmin, hmax⟩ := toInt_bounds v
    exact .number hmin hmax

theorem ValueType.writable_toJson (t : ValueType) (v : t.Val) (depth : Nat) :
    Writable depth (t.toJson v) := by
  cases t with
  | scalar s => exact s.writable_toJson v depth
  | enum e => exact .string _

theorem Kind.writable_of_toJson? {kind : Kind} {slot : kind.Slot} {json : Json} {depth : Nat}
    (h : kind.toJson? slot = some json) (hdepth : kind.depth ≤ depth) : Writable depth json := by
  cases kind with
  | leaf type =>
    obtain ⟨v, rfl, rfl⟩ := Option.map_eq_some_iff.1 h
    exact type.writable_toJson v depth
  | list type =>
    obtain ⟨depth, rfl⟩ := Nat.exists_eq_add_of_le' hdepth
    rw [toJson?] at h
    split at h
    · cases h
    · obtain rfl := Option.some.inj h
      refine .array fun item hitem => ?_
      obtain ⟨v, -, rfl⟩ := List.mem_map.1 hitem
      exact type.writable_toJson v depth
  | map key value =>
    obtain ⟨depth, rfl⟩ := Nat.exists_eq_add_of_le' hdepth
    rw [toJson?] at h
    split at h
    · cases h
    · obtain rfl := Option.some.inj h
      refine .object fun m hm => ?_
      obtain ⟨e, -, rfl⟩ := List.mem_map.1 hm
      exact value.writable_toJson e.2 depth

namespace Tree

variable {fields : Fields}

theorem writable_memberOf_append {field : Label} {doc : Option Json} {members : Json.Members}
    {depth : Nat} (hdoc : ∀ json, doc = some json → Writable depth json)
    (hrest : ∀ m ∈ members, Writable depth m.2) :
    ∀ m ∈ memberOf field doc ++ members, Writable depth m.2 := by
  intro m hm
  rcases List.mem_append.1 hm with hm | hm
  · exact hdoc m.2 (mem_memberOf_iff.1 hm).2
  · exact hrest m hm

theorem writable_toJson_of_members {tree : Tree fields}
    (h : ∀ {depth : Nat}, fields.depth ≤ depth + 1 → ∀ m ∈ members fields tree,
      Writable depth m.2) {depth : Nat} (hdepth : fields.depth ≤ depth) :
    Writable depth tree.toJson := by
  cases depth with
  | zero => exact absurd fields.depth_pos (Nat.not_lt.2 hdepth)
  | succ depth => exact .object (h hdepth)

theorem writable_members (tree : Tree fields) {depth : Nat} (h : fields.depth ≤ depth + 1) :
    ∀ m ∈ members fields tree, Writable depth m.2 := by
  induction fields generalizing depth with
  | nil => exact nofun
  | plain field kind rest ih =>
    obtain ⟨slot, tree⟩ := tree
    obtain ⟨hkind, hrest⟩ := Nat.max_le.1 h
    refine writable_memberOf_append ?_ (ih tree hrest)
    exact fun json hjson => Kind.writable_of_toJson? hjson (Nat.le_of_succ_le_succ hkind)
  | nested field message sub rest ihsub ih =>
    obtain ⟨slot, tree⟩ := tree
    obtain ⟨hsub, hrest⟩ := Nat.max_le.1 h
    refine writable_memberOf_append ?_ (ih tree hrest)
    intro json hjson
    obtain ⟨t, -, rfl⟩ := Option.map_eq_some_iff.1 hjson
    exact writable_toJson_of_members (fun h => ihsub t h) (Nat.le_of_succ_le_succ hsub)
  | nestedList field message sub rest ihsub ih =>
    obtain ⟨slot, tree⟩ := tree
    obtain ⟨hsub, hrest⟩ := Nat.max_le.1 h
    refine writable_memberOf_append ?_ (ih tree hrest)
    intro json hjson
    obtain ⟨depth, rfl⟩ : ∃ d, depth = d + 1 := ⟨depth - 1, by omega⟩
    split at hjson
    · cases hjson
    · obtain rfl := Option.some.inj hjson
      refine .array fun item hitem => ?_
      obtain ⟨t, -, rfl⟩ := List.mem_map.1 hitem
      exact writable_toJson_of_members (fun h => ihsub t h) (by omega)

/-- The text of a tree can be read if its document is not too deep. -/
theorem writable_toJson (tree : Tree fields) {depth : Nat} (h : fields.depth ≤ depth) :
    Writable depth tree.toJson :=
  writable_toJson_of_members (writable_members tree) h

end Tree

end LayeredConfig
