import LayeredConfig.Proofs.Message.Value
import LayeredConfig.Proofs.SortedMap
import Mathlib.Data.List.Perm.Basic

/-!
# The documents of trees

The document of a tree has a member for every set field, under the field's
name.  `Tree.sortedMembers` lists these members with their values sorted.  They
are in declaration order, which does not matter as long as the names of the
fields are distinct at every level (`Fields.Distinct`).
-/

namespace LayeredConfig

namespace Fields

def names (fields : Fields) : List String := fields.toList.map fun field => field.label.name

/-- No message, at any depth, has two fields with one name. -/
def Distinct : Fields → Prop
  | nil => True
  | plain field _ rest => field.name ∉ rest.names ∧ rest.Distinct
  | nested field _ sub rest => field.name ∉ rest.names ∧ sub.Distinct ∧ rest.Distinct
  | nestedList field _ sub rest => field.name ∉ rest.names ∧ sub.Distinct ∧ rest.Distinct

end Fields

theorem exists_eq_map_of_perm {α β : Type} {f : α → β} {l : List β} {m : List α}
    (h : l.Perm (m.map f)) : ∃ n : List α, l = n.map f ∧ n.Perm m := by
  have hcomp := congrFun (congrFun (List.eq_map_comp_perm f) l) m
  exact hcomp.mpr h

namespace Kind

theorem toJson?_eq_none_iff {kind : Kind} {slot : kind.Slot} :
    kind.toJson? slot = none ↔ slot = kind.unset := by
  cases kind with
  | leaf type => exact Option.map_eq_none_iff
  | list type => simp [toJson?, unset]
  | map key value =>
    rw [toJson?, unset, ← SortedMap.isEmpty_iff]
    cases slot.isEmpty with
    | false => simp
    | true => simp

theorem decode_leaf_of_ofJson? {type : ValueType} {json : Json} {v : type.Val}
    (h : type.ofJson? json = some v) : (leaf type).decode json = .ok (some v) := by
  have hread := ValueType.decode_of_ofJson? h
  cases json with
  | null =>
    cases type with
    | scalar s => cases s <;> exact nomatch h
    | enum e => exact nomatch h
  | bool | number | string | array | object =>
    rw [decode, hread]
    · rfl
    · exact nofun

def entryMember (key value : Scalar) (entry : key.Val × value.Val) : String × Json :=
  (key.toText entry.1, value.toJson entry.2)

theorem decodeEntry_entryMember {key value : Scalar} (entry : key.Val × value.Val) :
    decodeEntry key value (entryMember key value entry) = .ok entry := by
  have hkey : key.decodeKey (key.toText entry.1) = .ok entry.1 := Scalar.decodeKey_eq_ok_iff.2 rfl
  have hvalue := Scalar.decode_of_ofJson? (value.ofJson?_toJson entry.2)
  rw [decodeEntry, entryMember, hkey, hvalue]
  rfl

theorem map_sortMember_entries {key value : Scalar} (entries : List (key.Val × value.Val)) :
    (entries.map fun e => (key.toText e.1, value.toJson e.2)).map Json.sortMember =
      entries.map (entryMember key value) := by
  rw [List.map_map]
  refine List.map_congr_left fun e _ => ?_
  rw [Function.comp, Json.sortMember, value.sort_toJson]
  rfl

theorem nodup_keys_map_entryMember {key value : Scalar} {entries : List (key.Val × value.Val)}
    (h : (Assoc.keys entries).Nodup) :
    (Assoc.keys (entries.map (entryMember key value))).Nodup := by
  have hkeys : Assoc.keys (entries.map (entryMember key value)) =
      (Assoc.keys entries).map key.toText := by
    rw [Assoc.keys, Assoc.keys, List.map_map, List.map_map]
    rfl
  rw [hkeys]
  exact h.map key.toText_injective

/-- What a field holds is read back from its sorted document. -/
theorem decode_sort_of_toJson? {kind : Kind} {slot : kind.Slot} {json : Json}
    (h : kind.toJson? slot = some json) : kind.decode json.sort = .ok slot := by
  cases kind with
  | leaf type =>
    obtain ⟨v, rfl, rfl⟩ := Option.map_eq_some_iff.1 h
    rw [type.sort_toJson]
    exact decode_leaf_of_ofJson? (type.ofJson?_toJson v)
  | list type =>
    rw [toJson?] at h
    split at h
    · exact nomatch h
    · obtain rfl := Option.some.inj h
      rw [Json.sort_array, List.map_map, decode]
      refine (mapM_eq_ok_map fun v _ => ?_).trans (congrArg _ (List.map_id slot))
      rw [Function.comp, type.sort_toJson]
      exact type.decode_toJson v
  | map key value =>
    rw [toJson?] at h
    split at h
    · exact nomatch h
    · obtain rfl := Option.some.inj h
      have hkeys : (Assoc.keys (slot.entries.map (entryMember key value))).Nodup :=
        nodup_keys_map_entryMember slot.nodup_keys
      obtain ⟨entries, hentries, hslot⟩ := exists_eq_map_of_perm (Assoc.ofList_perm hkeys)
      rw [Json.sort_object, map_sortMember_entries, decode, hentries,
        mapM_eq_ok_map fun e _ => decodeEntry_entryMember e, List.map_id']
      exact congrArg Except.ok (SortedMap.ofList_eq_of_perm hslot)

end Kind

namespace Tree

variable {fields rest sub : Fields}

/-- The members of a tree's document with their values sorted, in declaration
order. -/
def sortedMembers (fields : Fields) (tree : Tree fields) : Json.Members :=
  (members fields tree).map Json.sortMember

theorem toSortedJson_eq (tree : Tree fields) :
    tree.toSortedJson = .object (Assoc.ofList (sortedMembers fields tree)) :=
  Json.sort_object _

theorem sort_object_members (tree : Tree fields) :
    (Json.object (members fields tree)).sort =
      .object (Assoc.ofList (sortedMembers fields tree)) :=
  Json.sort_object _

theorem map_sortMember_memberOf (field : Label) (json : Option Json) :
    (memberOf field json).map Json.sortMember = memberOf field (json.map Json.sort) := by
  cases json with
  | none => rfl
  | some json => rfl

@[simp] theorem memberOf_none (field : Label) : memberOf field none = [] := rfl

@[simp] theorem memberOf_some (field : Label) (json : Json) :
    memberOf field (some json) = [(field.name, json)] := rfl

theorem find?_memberOf (key : String) (field : Label) (json : Option Json) :
    Assoc.find? key (memberOf field json) = if key = field.name then json else none := by
  cases json with
  | none => simp [Assoc.find?]
  | some json =>
    by_cases hkey : key = field.name
    · rw [memberOf_some, hkey, Assoc.find?_cons_self, if_pos rfl]
    · rw [memberOf_some, Assoc.find?_cons_of_ne hkey, if_neg hkey]
      rfl

def nestedDoc (slot : Option (Tree sub)) : Option Json :=
  slot.map fun t => .object (Assoc.ofList (sortedMembers sub t))

def nestedListDoc (slot : List (Tree sub)) : Option Json :=
  if slot.isEmpty then none
  else some (.array (slot.map fun t => .object (Assoc.ofList (sortedMembers sub t))))

theorem sortedMembers_plain (field : Label) (kind : Kind) (slot : kind.Slot) (tree : Tree rest) :
    sortedMembers (.plain field kind rest) (slot, tree) =
      memberOf field ((kind.toJson? slot).map Json.sort) ++ sortedMembers rest tree := by
  rw [← map_sortMember_memberOf]
  exact List.map_append

theorem sortedMembers_nested (field message : Label) (slot : Option (Tree sub))
    (tree : Tree rest) :
    sortedMembers (.nested field message sub rest) (slot, tree) =
      memberOf field (nestedDoc slot) ++ sortedMembers rest tree := by
  have hdoc : nestedDoc slot =
      (slot.map fun t => Json.object (members sub t)).map Json.sort := by
    rw [nestedDoc, Option.map_map]
    simp only [Function.comp_def, sort_object_members]
  rw [hdoc, ← map_sortMember_memberOf]
  exact List.map_append

theorem sortedMembers_nestedList (field message : Label) (slot : List (Tree sub))
    (tree : Tree rest) :
    sortedMembers (.nestedList field message sub rest) (slot, tree) =
      memberOf field (nestedListDoc slot) ++ sortedMembers rest tree := by
  cases slot with
  | nil => rfl
  | cons t slot =>
    have hdoc : nestedListDoc (t :: slot) =
        (some (Json.array ((t :: slot).map fun t => .object (members sub t)))).map Json.sort := by
      rw [Option.map_some, Json.sort_array, List.map_map]
      simp only [Function.comp_def, sort_object_members]
      rfl
    rw [hdoc, ← map_sortMember_memberOf]
    exact List.map_append

theorem mem_cons_of_mem_keys_memberOf_append {field : Label} {json : Option Json}
    {members : Json.Members} {names : List String} {key : String}
    (hmembers : key ∈ Assoc.keys members → key ∈ names)
    (h : key ∈ Assoc.keys (memberOf field json ++ members)) : key ∈ field.name :: names := by
  cases json with
  | none => exact List.mem_cons_of_mem _ (hmembers h)
  | some json =>
    rcases List.mem_cons.1 h with rfl | h
    · exact List.mem_cons_self
    · exact List.mem_cons_of_mem _ (hmembers h)

theorem mem_names_of_mem_keys {tree : Tree fields} {key : String}
    (h : key ∈ Assoc.keys (sortedMembers fields tree)) : key ∈ fields.names := by
  induction fields with
  | nil => exact nomatch h
  | plain field kind rest ih =>
    obtain ⟨slot, tree⟩ := tree
    rw [sortedMembers_plain] at h
    exact mem_cons_of_mem_keys_memberOf_append ih h
  | nested field message sub rest _ ih =>
    obtain ⟨slot, tree⟩ := tree
    rw [sortedMembers_nested] at h
    exact mem_cons_of_mem_keys_memberOf_append ih h
  | nestedList field message sub rest _ ih =>
    obtain ⟨slot, tree⟩ := tree
    rw [sortedMembers_nestedList] at h
    exact mem_cons_of_mem_keys_memberOf_append ih h

theorem nodup_keys_memberOf_append {field : Label} {json : Option Json} {members : Json.Members}
    (hname : field.name ∉ Assoc.keys members) (h : (Assoc.keys members).Nodup) :
    (Assoc.keys (memberOf field json ++ members)).Nodup := by
  cases json with
  | none => exact h
  | some json => exact List.nodup_cons.2 ⟨hname, h⟩

theorem nodup_keys_sortedMembers (h : fields.Distinct) (tree : Tree fields) :
    (Assoc.keys (sortedMembers fields tree)).Nodup := by
  induction fields with
  | nil => exact List.nodup_nil
  | plain field kind rest ih =>
    obtain ⟨slot, tree⟩ := tree
    obtain ⟨hname, hrest⟩ := h
    rw [sortedMembers_plain]
    exact nodup_keys_memberOf_append (mt mem_names_of_mem_keys hname) (ih hrest tree)
  | nested field message sub rest _ ih =>
    obtain ⟨slot, tree⟩ := tree
    obtain ⟨hname, -, hrest⟩ := h
    rw [sortedMembers_nested]
    exact nodup_keys_memberOf_append (mt mem_names_of_mem_keys hname) (ih hrest tree)
  | nestedList field message sub rest _ ih =>
    obtain ⟨slot, tree⟩ := tree
    obtain ⟨hname, -, hrest⟩ := h
    rw [sortedMembers_nestedList]
    exact nodup_keys_memberOf_append (mt mem_names_of_mem_keys hname) (ih hrest tree)

theorem ofList_sortedMembers_perm (h : fields.Distinct) (tree : Tree fields) :
    (Assoc.ofList (sortedMembers fields tree)).Perm (sortedMembers fields tree) :=
  Assoc.ofList_perm (nodup_keys_sortedMembers h tree)

end Tree

end LayeredConfig
