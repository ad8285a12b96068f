import LayeredConfig.ConfigFile
import LayeredConfig.Proofs.Message.RoundTrip

/-!
# Merging trees

`Tree.merge` lays one tree over another field by field.  Files are laid over
trees by another route: both trees are written as documents, the documents are
merged, and the outcome is read again.  Writing takes the one merge to the
other (`Tree.ofList_sortedMembers_merge`), so the routes differ only where the
merged tree is not read back as itself.
-/

namespace LayeredConfig

namespace Kind

/-- What a field holds after merging: what is set above, otherwise what is set
below; a map takes the entries of both. -/
def merge : (kind : Kind) → (below above : kind.Slot) → kind.Slot
  | leaf _, below, above => above.or below
  | list _, below, above => if above.isEmpty then below else above
  | map _ _, below, above => below.merge above

@[simp] theorem merge_unset_left (kind : Kind) (above : kind.Slot) :
    kind.merge kind.unset above = above := by
  cases kind with
  | leaf type => exact Option.or_none
  | list type => cases above <;> rfl
  | map key value => exact SortedMap.empty_merge above

@[simp] theorem merge_unset_right (kind : Kind) (below : kind.Slot) :
    kind.merge below kind.unset = below := by
  cases kind <;> rfl

end Kind

namespace Tree

def mergeNested {α : Type} (merge : α → α → α) : (below above : Option α) → Option α
  | some below, some above => some (merge below above)
  | none, above => above
  | below, none => below

/-- The tree `base` with what `upper` sets laid over it. -/
def merge : (fields : Fields) → (base upper : Tree fields) → Tree fields
  | .nil, _, _ => ()
  | .plain _ kind rest, (below, base), (above, upper) =>
    (kind.merge below above, merge rest base upper)
  | .nested _ _ sub rest, (below, base), (above, upper) =>
    (mergeNested (merge sub) below above, merge rest base upper)
  | .nestedList _ _ _ rest, (below, base), (above, upper) =>
    (if above.isEmpty then below else above, merge rest base upper)

theorem merge_empty_left {fields : Fields} (tree : Tree fields) :
    merge fields (empty fields) tree = tree := by
  induction fields with
  | nil => rfl
  | plain field kind rest ih => exact Prod.ext (kind.merge_unset_left tree.1) (ih tree.2)
  | nested field message sub rest _ ih => exact Prod.ext rfl (ih tree.2)
  | nestedList field message sub rest _ ih =>
    obtain ⟨slot, tree⟩ := tree
    refine Prod.ext ?_ (ih tree)
    cases slot <;> rfl

end Tree

/-! ## One field -/

theorem Scalar.toJson_ne_object (s : Scalar) (v : s.Val) (members : Json.Members) :
    s.toJson v ≠ .object members := by
  cases s <;> exact nofun

theorem ValueType.toJson_ne_object (t : ValueType) (v : t.Val) (members : Json.Members) :
    t.toJson v ≠ .object members := by
  cases t with
  | scalar s => exact s.toJson_ne_object v members
  | enum e => exact nofun

namespace Kind

variable {key value : Scalar}

theorem find?_map_entryMember (entries : List (key.Val × value.Val)) (k : key.Val) :
    Assoc.find? (key.toText k) (entries.map (entryMember key value)) =
      (Assoc.find? k entries).map value.toJson := by
  induction entries with
  | nil => rfl
  | cons e entries ih =>
    obtain ⟨k', v⟩ := e
    rw [List.map_cons, entryMember]
    by_cases hk : k = k'
    · subst hk
      rw [Assoc.find?_cons_self, Assoc.find?_cons_self]
      rfl
    · rw [Assoc.find?_cons_of_ne hk, Assoc.find?_cons_of_ne (key.toText_injective.ne hk), ih]

theorem find?_map_entryMember_of_ne (entries : List (key.Val × value.Val)) {text : String}
    (h : ∀ k, text ≠ key.toText k) :
    Assoc.find? text (entries.map (entryMember key value)) = none := by
  rw [Assoc.find?_eq_none_iff, Assoc.keys, List.map_map]
  intro hmem
  obtain ⟨e, -, heq⟩ := List.mem_map.1 hmem
  exact h e.1 heq.symm

theorem ofList_map_entryMember_merge (below above : SortedMap key.Val value.Val) :
    Assoc.ofList ((below.merge above).entries.map (entryMember key value)) =
      Json.mergeMembers (Assoc.ofList (below.entries.map (entryMember key value)))
        (Assoc.ofList (above.entries.map (entryMember key value))) := by
  refine Json.ofList_eq_mergeMembers (nodup_keys_map_entryMember above.nodup_keys)
    (nodup_keys_map_entryMember below.nodup_keys)
    (nodup_keys_map_entryMember (below.merge above).nodup_keys) fun text => ?_
  by_cases htext : ∃ k, text = key.toText k
  · obtain ⟨k, rfl⟩ := htext
    have hmerge : Assoc.find? k (below.merge above).entries =
        (Assoc.find? k above.entries).or (Assoc.find? k below.entries) :=
      below.find?_merge above k
    rw [find?_map_entryMember, find?_map_entryMember, find?_map_entryMember, hmerge]
    cases Assoc.find? k above.entries with
    | none => rfl
    | some v =>
      rw [Option.map_some, Json.over?_some_of_ne_object (value.toJson_ne_object v)]
      rfl
  · have hne : ∀ k, text ≠ key.toText k := fun k h => htext ⟨k, h⟩
    rw [find?_map_entryMember_of_ne _ hne, find?_map_entryMember_of_ne _ hne,
      find?_map_entryMember_of_ne _ hne]
    rfl

theorem sort_toJson?_map (slot : SortedMap key.Val value.Val) :
    ((map key value).toJson? slot).map Json.sort =
      if slot.isEmpty then none
      else some (.object (Assoc.ofList (slot.entries.map (entryMember key value)))) := by
  rw [toJson?]
  split
  · rfl
  · rw [Option.map_some, Json.sort_object, map_sortMember_entries]

theorem sort_toJson?_map_merge {key value : Scalar} (below above : SortedMap key.Val value.Val) :
    ((map key value).toJson? (below.merge above)).map Json.sort =
      Json.over? (((map key value).toJson? below).map Json.sort)
        (((map key value).toJson? above).map Json.sort) := by
  rw [sort_toJson?_map, sort_toJson?_map, sort_toJson?_map]
  cases habove : above.isEmpty with
  | true =>
    obtain rfl := SortedMap.isEmpty_iff.1 habove
    rfl
  | false =>
    have hmerged : (below.merge above).isEmpty = false := by
      rw [Bool.eq_false_iff] at habove ⊢
      exact fun h => habove (SortedMap.isEmpty_of_isEmpty_merge h)
    rw [hmerged]
    cases hbelow : below.isEmpty with
    | true =>
      obtain rfl := SortedMap.isEmpty_iff.1 hbelow
      rw [SortedMap.empty_merge]
      rfl
    | false =>
      simp only [Bool.false_eq_true, if_false]
      rw [ofList_map_entryMember_merge, Json.over?, Json.mergeValue]

theorem sort_toJson?_merge (kind : Kind) (below above : kind.Slot) :
    (kind.toJson? (kind.merge below above)).map Json.sort =
      Json.over? ((kind.toJson? below).map Json.sort) ((kind.toJson? above).map Json.sort) := by
  cases kind with
  | leaf type =>
    cases above with
    | none => rfl
    | some v =>
      have hdoc : ((leaf type).toJson? (some v)).map Json.sort = some (type.toJson v) :=
        congrArg some (type.sort_toJson v)
      rw [hdoc, Json.over?_some_of_ne_object (type.toJson_ne_object v)]
      exact hdoc
  | list type =>
    cases above with
    | nil => rfl
    | cons v values =>
      have hdoc : ((list type).toJson? (v :: values)).map Json.sort =
          some (.array (((v :: values).map type.toJson).map Json.sort)) :=
        congrArg some (Json.sort_array _)
      rw [hdoc, Json.over?_array]
      exact hdoc
  | map key value => exact sort_toJson?_map_merge below above

end Kind

/-! ## The whole tree -/

namespace Tree

variable {fields rest sub : Fields}

/-- Merging the documents of two trees, one member at a time. -/
theorem find?_memberOf_append_merge {field : Label} {below above merged : Option Json}
    {base upper members : Json.Members} (hname : field.name ∉ Assoc.keys base)
    (hname' : field.name ∉ Assoc.keys upper) (hdoc : merged = Json.over? below above)
    (h : ∀ key, Assoc.find? key members =
      Json.over? (Assoc.find? key base) (Assoc.find? key upper)) (key : String) :
    Assoc.find? key (memberOf field merged ++ members) =
      Json.over? (Assoc.find? key (memberOf field below ++ base))
        (Assoc.find? key (memberOf field above ++ upper)) := by
  rw [Assoc.find?_append, Assoc.find?_append, Assoc.find?_append, find?_memberOf, find?_memberOf,
    find?_memberOf, h]
  by_cases hkey : key = field.name
  · rw [if_pos hkey, if_pos hkey, if_pos hkey, hkey, Assoc.find?_eq_none_iff.2 hname,
      Assoc.find?_eq_none_iff.2 hname', Option.or_none, Option.or_none, Json.over?_none_left,
      Option.or_none, hdoc]
  · rw [if_neg hkey, if_neg hkey, if_neg hkey, Option.none_or, Option.none_or, Option.none_or]

theorem nestedListDoc_merge (below above : List (Tree sub)) :
    nestedListDoc (if above.isEmpty then below else above) =
      Json.over? (nestedListDoc below) (nestedListDoc above) := by
  cases above with
  | nil => rfl
  | cons tree trees => exact (Json.over?_array _ _).symm

theorem nestedDoc_merge
    (h : ∀ base upper : Tree sub, Assoc.ofList (sortedMembers sub (merge sub base upper)) =
      Json.mergeMembers (Assoc.ofList (sortedMembers sub base))
        (Assoc.ofList (sortedMembers sub upper))) (below above : Option (Tree sub)) :
    nestedDoc (mergeNested (merge sub) below above) =
      Json.over? (nestedDoc below) (nestedDoc above) := by
  cases above with
  | none => cases below <;> rfl
  | some upper =>
    cases below with
    | none => rfl
    | some base =>
      have hvalue : Json.mergeValue (.object (Assoc.ofList (sortedMembers sub base)))
          (.object (Assoc.ofList (sortedMembers sub upper))) =
          .object (Assoc.ofList (sortedMembers sub (merge sub base upper))) := by
        rw [Json.mergeValue, h]
      exact congrArg some hvalue.symm

theorem ofList_sortedMembers_merge_of_find? (hdistinct : fields.Distinct)
    (base upper : Tree fields)
    (h : ∀ key, Assoc.find? key (sortedMembers fields (merge fields base upper)) =
      Json.over? (Assoc.find? key (sortedMembers fields base))
        (Assoc.find? key (sortedMembers fields upper))) :
    Assoc.ofList (sortedMembers fields (merge fields base upper)) =
      Json.mergeMembers (Assoc.ofList (sortedMembers fields base))
        (Assoc.ofList (sortedMembers fields upper)) :=
  Json.ofList_eq_mergeMembers (nodup_keys_sortedMembers hdistinct _)
    (nodup_keys_sortedMembers hdistinct _) (nodup_keys_sortedMembers hdistinct _) h

theorem find?_sortedMembers_merge (hdistinct : fields.Distinct) (base upper : Tree fields)
    (key : String) :
    Assoc.find? key (sortedMembers fields (merge fields base upper)) =
      Json.over? (Assoc.find? key (sortedMembers fields base))
        (Assoc.find? key (sortedMembers fields upper)) := by
  induction fields generalizing key with
  | nil => rfl
  | plain field kind rest ih =>
    obtain ⟨below, base⟩ := base
    obtain ⟨above, upper⟩ := upper
    obtain ⟨hname, hrest⟩ := hdistinct
    refine (congrArg _ (sortedMembers_plain field kind _ _)).trans ?_
    rw [sortedMembers_plain, sortedMembers_plain]
    exact find?_memberOf_append_merge (mt mem_names_of_mem_keys hname)
      (mt mem_names_of_mem_keys hname) (kind.sort_toJson?_merge below above)
      (ih hrest base upper) key
  | nested field message sub rest ihsub ih =>
    obtain ⟨below, base⟩ := base
    obtain ⟨above, upper⟩ := upper
    obtain ⟨hname, hsub, hrest⟩ := hdistinct
    refine (congrArg _ (sortedMembers_nested field message _ _)).trans ?_
    rw [sortedMembers_nested, sortedMembers_nested]
    exact find?_memberOf_append_merge (mt mem_names_of_mem_keys hname)
      (mt mem_names_of_mem_keys hname)
      (nestedDoc_merge (fun base upper =>
        ofList_sortedMembers_merge_of_find? hsub base upper (ihsub hsub base upper)) below above)
      (ih hrest base upper) key
  | nestedList field message sub rest _ ih =>
    obtain ⟨below, base⟩ := base
    obtain ⟨above, upper⟩ := upper
    obtain ⟨hname, -, hrest⟩ := hdistinct
    refine (congrArg _ (sortedMembers_nestedList field message _ _)).trans ?_
    rw [sortedMembers_nestedList, sortedMembers_nestedList]
    exact find?_memberOf_append_merge (mt mem_names_of_mem_keys hname)
      (mt mem_names_of_mem_keys hname) (nestedListDoc_merge below above)
      (ih hrest base upper) key

theorem ofList_sortedMembers_merge (hdistinct : fields.Distinct) (base upper : Tree fields) :
    Assoc.ofList (sortedMembers fields (merge fields base upper)) =
      Json.mergeMembers (Assoc.ofList (sortedMembers fields base))
        (Assoc.ofList (sortedMembers fields upper)) :=
  ofList_sortedMembers_merge_of_find? hdistinct base upper
    (find?_sortedMembers_merge hdistinct base upper)

end Tree

/-- Laying one tree over another reads the document of the merged tree. -/
theorem ConfigFile.overlayTrees_eq_ok_iff {message : Message} (hdistinct : message.fields.Distinct)
    {base upper tree : Tree message.fields} :
    overlayTrees message base upper = .ok tree ↔
      Held message.fields []
        (Assoc.ofList (Tree.sortedMembers message.fields (Tree.merge _ base upper))) tree := by
  rw [← Message.gives_decode_object_iff, Tree.ofList_sortedMembers_merge hdistinct,
    ← map_fst_eq_ok_iff, overlayTrees, Tree.toSortedJson_eq, Tree.toSortedJson_eq]

/-- The route through documents comes to the merged tree where that tree is
addressed, and nowhere else. -/
theorem ConfigFile.overlayTrees_eq_merge_iff {message : Message}
    (hdistinct : message.fields.Distinct) (base upper : Tree message.fields) :
    overlayTrees message base upper = .ok (Tree.merge _ base upper) ↔
      Tree.Addressed _ (Tree.merge _ base upper) :=
  (overlayTrees_eq_ok_iff hdistinct).trans
    (Tree.held_iff_addressed hdistinct [] _ (Tree.ofList_sortedMembers_perm hdistinct _))

end LayeredConfig
