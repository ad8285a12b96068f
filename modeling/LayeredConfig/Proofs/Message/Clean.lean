import LayeredConfig.Message.Clean
import LayeredConfig.Proofs.Json.Ordered
import LayeredConfig.Proofs.Json.Trim
import LayeredConfig.Proofs.Message.Decode
import Mathlib.Data.List.Nodup

/-!
# What cleaning leaves

A cleaned document fits: every member that a field takes is a value the field
can hold (`Fields.Fits`).  Two fields may have a key in common, and then the
later one cleans what the earlier one left.  That does no harm because cleaning
only trims, and what fits goes on fitting when it is trimmed.
-/

namespace LayeredConfig

namespace Json

def ArrayOf (p : Json → Prop) : Json → Prop
  | array items => ∀ item ∈ items, p item
  | _ => False

/-- An object whose members, as a whole, satisfy `p`. -/
def ObjectOf (p : Members → Prop) : Json → Prop
  | object members => p members
  | _ => False

instance instDecidableArrayOf {p : Json → Prop} [DecidablePred p] :
    (json : Json) → Decidable (json.ArrayOf p)
  | array items => inferInstanceAs (Decidable (∀ item ∈ items, p item))
  | null | bool _ | number _ | string _ | object _ => isFalse id

instance instDecidableObjectOf {p : Members → Prop} [DecidablePred p] :
    (json : Json) → Decidable (json.ObjectOf p)
  | object members => inferInstanceAs (Decidable (p members))
  | null | bool _ | number _ | string _ | array _ => isFalse id

theorem ArrayOf.of_trims {p : Json → Prop} (hp : ∀ a b, Trims a b → p b → p a) {json orig : Json}
    (htrims : Trims json orig) (h : ArrayOf p orig) : ArrayOf p json := by
  cases json with
  | array items =>
    obtain ⟨origs, rfl, hitems⟩ := htrims
    intro item hitem
    obtain ⟨orig, horig, ht⟩ := trimsItems_iff.1 hitems item hitem
    exact hp item orig ht (h orig horig)
  | object members =>
    obtain ⟨origs, rfl, -⟩ := htrims
    exact h
  | null | bool | number | string =>
    obtain rfl : orig = _ := htrims
    exact h

theorem ObjectOf.of_trims {p : Members → Prop}
    (hp : ∀ members origs, TrimsMembers members origs → p origs → p members) {json orig : Json}
    (htrims : Trims json orig) (h : ObjectOf p orig) : ObjectOf p json := by
  cases json with
  | object members =>
    obtain ⟨origs, rfl, hmembers⟩ := htrims
    exact hp members origs hmembers h
  | array items =>
    obtain ⟨origs, rfl, -⟩ := htrims
    exact h
  | null | bool | number | string =>
    obtain rfl : orig = _ := htrims
    exact h

end Json

namespace ValueType

theorem fits_eq_false_iff {t : ValueType} {json : Json} :
    t.fits json = false ↔ t.ofJson? json = none := by
  rw [fits, Option.isSome_eq_false_iff, Option.isNone_iff_eq_none]

theorem fits_of_trims {t : ValueType} {json orig : Json} (htrims : json.Trims orig)
    (h : t.fits orig = true) : t.fits json = true := by
  cases json with
  | array items =>
    obtain ⟨origs, rfl, -⟩ := htrims
    cases t with
    | scalar s => cases s <;> exact nomatch h
    | enum e => exact nomatch h
  | object members =>
    obtain ⟨origs, rfl, -⟩ := htrims
    cases t with
    | scalar s => cases s <;> exact nomatch h
    | enum e => exact nomatch h
  | null | bool | number | string =>
    obtain rfl : orig = _ := htrims
    exact h

theorem cleanItems_fst (t : ValueType) (path : Json.Path) (index : Nat) (items : List Json) :
    (t.cleanItems path index items).1 = items.filter t.fits := by
  induction items generalizing index with
  | nil => rfl
  | cons item items ih =>
    rw [cleanItems]
    by_cases h : t.fits item = true
    · simp [h, ih]
    · simp [h, ih]

end ValueType

namespace Kind

def entryFits (key value : Scalar) (entry : String × Json) : Bool :=
  key.keyFits entry.1 && (ValueType.scalar value).fits entry.2

def Fits : Kind → Json → Prop
  | leaf type, json => type.fits json = true
  | list type, json => json.ArrayOf fun item => type.fits item = true
  | map key value, json => json.ObjectOf fun entries => ∀ e ∈ entries, entryFits key value e = true

theorem fits_of_trims {kind : Kind} {json orig : Json} (htrims : json.Trims orig)
    (h : kind.Fits orig) : kind.Fits json := by
  cases kind with
  | leaf type => exact ValueType.fits_of_trims htrims h
  | list type => exact h.of_trims (fun _ _ => ValueType.fits_of_trims) htrims
  | map key value =>
    refine h.of_trims (fun members origs hmembers h m hm => ?_) htrims
    obtain ⟨orig, horig, ht⟩ := Json.trimsMembers_iff.1 hmembers m hm
    obtain ⟨hkey, hvalue⟩ := Bool.and_eq_true_iff.1 (h _ horig)
    exact Bool.and_eq_true_iff.2 ⟨hkey, ValueType.fits_of_trims ht hvalue⟩

theorem cleanEntries_fst (key value : Scalar) (path : Json.Path) (entries : Json.Members) :
    (cleanEntries key value path entries).1 = entries.filter (entryFits key value) := by
  induction entries with
  | nil => rfl
  | cons e entries ih =>
    obtain ⟨k, json⟩ := e
    rw [List.filter_cons, ← ih, cleanEntries, entryFits]
    dsimp only
    split
    · rfl
    · rfl

theorem clean_list_fst (type : ValueType) (path : Json.Path) (items : List Json) :
    ((list type).clean path (.array items)).1 = some (.array (items.filter type.fits)) :=
  congrArg (fun items => some (Json.array items)) (type.cleanItems_fst path 0 items)

theorem clean_map_fst (key value : Scalar) (path : Json.Path) (entries : Json.Members) :
    ((map key value).clean path (.object entries)).1 =
      some (.object (entries.filter (entryFits key value))) :=
  congrArg (fun entries => some (Json.object entries)) (cleanEntries_fst key value path entries)

end Kind

namespace Fields

/-- An object in which every member that a field takes fits that field. -/
def Fits : Fields → Json.Members → Prop
  | nil, _ => True
  | plain field kind rest, members =>
    (∀ m ∈ field.own members, kind.Fits m.2) ∧ rest.Fits (field.others members)
  | nested field _ sub rest, members =>
    (∀ m ∈ field.own members, m.2.ObjectOf sub.Fits) ∧ rest.Fits (field.others members)
  | nestedList field _ sub rest, members =>
    (∀ m ∈ field.own members, m.2.ArrayOf (Json.ObjectOf sub.Fits)) ∧
      rest.Fits (field.others members)

end Fields

namespace Label

theorem mem_own_iff {field : Label} {members : Json.Members} {m : String × Json} :
    m ∈ field.own members ↔ m ∈ members ∧ m.1 ∈ field.keys := by
  simp [own]

theorem mem_others_iff {field : Label} {members : Json.Members} {m : String × Json} :
    m ∈ field.others members ↔ m ∈ members ∧ m.1 ∉ field.keys := by
  simp [others]

theorem others_trimsMembers (field : Label) (members : Json.Members) :
    Json.TrimsMembers (field.others members) members :=
  Json.trimsMembers_of_subset fun _ hm => (mem_others_iff.1 hm).1

theorem exists_mem_own_of_trims {field : Label} {members origs : Json.Members}
    (h : Json.TrimsMembers members origs) {m : String × Json} (hm : m ∈ field.own members) :
    ∃ orig, (m.1, orig) ∈ field.own origs ∧ m.2.Trims orig := by
  obtain ⟨hmem, hkey⟩ := mem_own_iff.1 hm
  obtain ⟨orig, horig, ht⟩ := Json.trimsMembers_iff.1 h m hmem
  exact ⟨orig, mem_own_iff.2 ⟨horig, hkey⟩, ht⟩

theorem trimsMembers_others {members origs : Json.Members}
    (field : Label) (h : Json.TrimsMembers members origs) :
    Json.TrimsMembers (field.others members) (field.others origs) := by
  refine Json.trimsMembers_iff.2 fun m hm => ?_
  obtain ⟨hmem, hkey⟩ := mem_others_iff.1 hm
  obtain ⟨orig, horig, ht⟩ := Json.trimsMembers_iff.1 h m hmem
  exact ⟨orig, mem_others_iff.2 ⟨horig, hkey⟩, ht⟩

end Label

theorem Fields.fits_of_trims {fields : Fields} {members origs : Json.Members}
    (htrims : Json.TrimsMembers members origs) (h : fields.Fits origs) : fields.Fits members := by
  induction fields generalizing members origs with
  | nil => trivial
  | plain field kind rest ih =>
    rw [Fits] at h ⊢
    refine ⟨fun m hm => ?_, ih (field.trimsMembers_others htrims) h.2⟩
    obtain ⟨orig, horig, ht⟩ := Label.exists_mem_own_of_trims htrims hm
    exact Kind.fits_of_trims ht (h.1 _ horig)
  | nested field message sub rest ihsub ih =>
    rw [Fits] at h ⊢
    refine ⟨fun m hm => ?_, ih (field.trimsMembers_others htrims) h.2⟩
    obtain ⟨orig, horig, ht⟩ := Label.exists_mem_own_of_trims htrims hm
    exact (h.1 _ horig).of_trims (fun _ _ => ihsub) ht
  | nestedList field message sub rest ihsub ih =>
    rw [Fits] at h ⊢
    refine ⟨fun m hm => ?_, ih (field.trimsMembers_others htrims) h.2⟩
    obtain ⟨orig, horig, ht⟩ := Label.exists_mem_own_of_trims htrims hm
    exact (h.1 _ horig).of_trims (fun _ _ => Json.ObjectOf.of_trims fun _ _ => ihsub) ht

/-! ## Cleaning one field -/

/-- How a field is cleaned: null goes, and what is kept of any other value is a
trimmed form of it and good for the field. -/
structure Cleans (clean : Json.Path → Json → Cleaned Json) (Good : Json → Prop) : Prop where
  null : ∀ path, (clean path .null).1 = none
  kept : ∀ path json kept, json.Ordered → (clean path json).1 = some kept →
    kept.Trims json ∧ kept.Ordered ∧ Good kept

theorem Label.nodup_keys (field : Label) : field.keys.Nodup := by
  rw [keys]
  split
  · exact List.nodup_singleton _
  · rename_i hne
    exact List.nodup_cons.2 ⟨fun h => hne (List.mem_singleton.1 h).symm, List.nodup_singleton _⟩

namespace Fields

variable {clean : Json.Path → Json → Cleaned Json} {Good : Json → Prop} {expected : String}
  {path : Json.Path} {key k : String} {members : Json.Members}

theorem find?_cleanKey_of_ne (h : k ≠ key) :
    Assoc.find? k (cleanKey clean expected path key members).1 = Assoc.find? k members := by
  unfold cleanKey
  split
  · rfl
  · exact Assoc.find?_erase_of_ne h members
  · dsimp only
    split
    · exact Assoc.find?_insert_of_ne h _ members
    · exact Assoc.find?_erase_of_ne h members

theorem find?_cleanKey_self (hnull : ∀ path, (clean path .null).1 = none)
    (hsorted : Assoc.Sorted members) :
    Assoc.find? key (cleanKey clean expected path key members).1 =
      (Assoc.find? key members).bind fun json => (clean (path ++ [.member key]) json).1 := by
  unfold cleanKey
  split
  · rename_i hfind
    rw [hfind]
    rfl
  · rename_i hfind
    rw [hfind, hsorted.find?_erase_self, Option.bind_some, hnull]
  · rename_i json _ hfind
    rw [hfind, Option.bind_some]
    dsimp only
    split
    · rename_i hclean
      rw [Assoc.find?_insert_self, hclean]
    · rename_i hclean
      rw [hsorted.find?_erase_self, hclean]

theorem ordered_cleanKey (hclean : Cleans clean Good) (h : (Json.object members).Ordered) :
    (Json.object (cleanKey clean expected path key members).1).Ordered := by
  unfold cleanKey
  split
  · exact h
  · exact Json.ordered_erase h key
  · rename_i json _ hfind
    have hjson := (Json.ordered_object_iff.1 h).2 _ (Assoc.mem_of_find?_eq_some hfind)
    dsimp only
    split
    · rename_i hkept
      exact Json.ordered_insert h key (hclean.kept _ _ _ hjson (congrArg Prod.fst hkept)).2.1
    · exact Json.ordered_erase h key

theorem ordered_cleanKeys (hclean : Cleans clean Good) {keys : List String}
    (h : (Json.object members).Ordered) :
    (Json.object (cleanKeys clean expected path keys members).1).Ordered := by
  induction keys generalizing members with
  | nil => exact h
  | cons key keys ih => exact ih (ordered_cleanKey hclean h)

theorem find?_cleanKeys_of_not_mem {keys : List String} (h : k ∉ keys) :
    Assoc.find? k (cleanKeys clean expected path keys members).1 = Assoc.find? k members := by
  induction keys generalizing members with
  | nil => rfl
  | cons key keys ih =>
    obtain ⟨hkey, hkeys⟩ := not_or.1 (mt List.mem_cons.2 h)
    exact (ih hkeys).trans (find?_cleanKey_of_ne hkey)

/-- A key of a field is left with what the cleaner keeps of its value. -/
theorem find?_cleanKeys_of_mem (hclean : Cleans clean Good) {keys : List String}
    (hkeys : keys.Nodup) (hmem : k ∈ keys) (h : (Json.object members).Ordered) :
    Assoc.find? k (cleanKeys clean expected path keys members).1 =
      (Assoc.find? k members).bind fun json => (clean (path ++ [.member k]) json).1 := by
  induction keys generalizing members with
  | nil => exact nomatch hmem
  | cons key keys ih =>
    obtain ⟨hkey, hkeys⟩ := List.nodup_cons.1 hkeys
    have hsorted := (Json.ordered_object_iff.1 h).1
    rcases List.mem_cons.1 hmem with rfl | hmem
    · exact (find?_cleanKeys_of_not_mem hkey).trans (find?_cleanKey_self hclean.null hsorted)
    · have hne : k ≠ key := fun heq => hkey (heq ▸ hmem)
      refine (ih hkeys hmem (ordered_cleanKey hclean h)).trans ?_
      rw [find?_cleanKey_of_ne hne]

theorem cleanKeys_spec (hclean : Cleans clean Good) (expected : String) (path : Json.Path)
    (field : Label) (h : (Json.object members).Ordered) :
    Json.TrimsMembers (cleanKeys clean expected path field.keys members).1 members ∧
      ∀ m ∈ field.own (cleanKeys clean expected path field.keys members).1, Good m.2 := by
  have hcleaned : (Json.object (cleanKeys clean expected path field.keys members).1).Ordered :=
    ordered_cleanKeys hclean h
  have hsorted := (Json.ordered_object_iff.1 hcleaned).1
  have hkeep : ∀ m ∈ (cleanKeys clean expected path field.keys members).1, m.1 ∈ field.keys →
      ∃ json, (m.1, json) ∈ members ∧ m.2.Trims json ∧ Good m.2 := by
    intro m hm hkey
    have hfind := (Assoc.find?_eq_some_iff hsorted.nodup_keys).2 hm
    rw [find?_cleanKeys_of_mem hclean field.nodup_keys hkey h, Option.bind_eq_some_iff] at hfind
    obtain ⟨json, hjson, hkept⟩ := hfind
    have hmem := Assoc.mem_of_find?_eq_some hjson
    obtain ⟨htrims, -, hgood⟩ :=
      hclean.kept _ _ _ ((Json.ordered_object_iff.1 h).2 _ hmem) hkept
    exact ⟨json, hmem, htrims, hgood⟩
  rw [Json.trimsMembers_iff]
  refine ⟨fun m hm => ?_, fun m hm => ?_⟩
  · by_cases hkey : m.1 ∈ field.keys
    · obtain ⟨json, hmem, htrims, -⟩ := hkeep m hm hkey
      exact ⟨json, hmem, htrims⟩
    · have hfind := (Assoc.find?_eq_some_iff hsorted.nodup_keys).2 hm
      rw [find?_cleanKeys_of_not_mem hkey] at hfind
      exact ⟨m.2, Assoc.mem_of_find?_eq_some hfind, Json.Trims.refl _⟩
  · obtain ⟨hm, hkey⟩ := Label.mem_own_iff.1 hm
    obtain ⟨-, -, -, hgood⟩ := hkeep m hm hkey
    exact hgood

end Fields

/-! ## Cleaning every kind of field -/

namespace Kind

theorem cleans_leaf (type : ValueType) : Cleans (leaf type).clean (leaf type).Fits := by
  refine ⟨fun path => ?_, fun path json kept hordered hkept => ?_⟩
  · cases type with
    | scalar s => cases s <;> rfl
    | enum e => rfl
  · rw [clean] at hkept
    split at hkept
    · rename_i hfits
      obtain rfl := Option.some.inj hkept
      exact ⟨Json.Trims.refl _, hordered, hfits⟩
    · exact nomatch hkept

theorem cleans_list (type : ValueType) : Cleans (list type).clean (list type).Fits := by
  refine ⟨fun path => rfl, fun path json kept hordered hkept => ?_⟩
  cases json with
  | array items =>
    rw [clean_list_fst] at hkept
    obtain rfl := Option.some.inj hkept
    have hsub : ∀ item ∈ items.filter type.fits, item ∈ items := fun item => List.mem_of_mem_filter
    have hitems := Json.ordered_array_iff.1 hordered
    refine ⟨⟨items, rfl, Json.trimsItems_of_subset hsub⟩, Json.ordered_array_iff.2 ?_, ?_⟩
    · exact fun item hitem => hitems item (hsub item hitem)
    · exact fun item hitem => (List.mem_filter.1 hitem).2
  | null | bool | number | string | object => exact nomatch hkept

theorem cleans_map (key value : Scalar) : Cleans (map key value).clean (map key value).Fits := by
  refine ⟨fun path => rfl, fun path json kept hordered hkept => ?_⟩
  cases json with
  | object entries =>
    rw [clean_map_fst] at hkept
    obtain rfl := Option.some.inj hkept
    have hsub : ∀ e ∈ entries.filter (entryFits key value), e ∈ entries :=
      fun e => List.mem_of_mem_filter
    obtain ⟨hsorted, hvalues⟩ := Json.ordered_object_iff.1 hordered
    refine ⟨⟨entries, rfl, Json.trimsMembers_of_subset hsub⟩,
      Json.ordered_object_iff.2 ⟨hsorted.filter _, ?_⟩, ?_⟩
    · exact fun e he => hvalues e (hsub e he)
    · exact fun e he => (List.mem_filter.1 he).2
  | null | bool | number | string | array => exact nomatch hkept

theorem cleans (kind : Kind) : Cleans kind.clean kind.Fits := by
  cases kind with
  | leaf type => exact cleans_leaf type
  | list type => exact cleans_list type
  | map key value => exact cleans_map key value

end Kind

namespace Fields

def CleansMembers (clean : Json.Path → Json.Members → Json.Members × List Mistyped)
    (Good : Json.Members → Prop) : Prop :=
  ∀ path members, (Json.object members).Ordered →
    Json.TrimsMembers (clean path members).1 members ∧
      (Json.object (clean path members).1).Ordered ∧ Good (clean path members).1

variable {clean : Json.Path → Json.Members → Json.Members × List Mistyped}
  {Good : Json.Members → Prop}

theorem cleans_cleanNested (h : CleansMembers clean Good) :
    Cleans (cleanNested clean) (Json.ObjectOf Good) := by
  refine ⟨fun path => rfl, fun path json kept hordered hkept => ?_⟩
  cases json with
  | object members =>
    obtain rfl := Option.some.inj hkept
    obtain ⟨htrims, hkeeps, hgood⟩ := h path members hordered
    exact ⟨⟨members, rfl, htrims⟩, hkeeps, hgood⟩
  | null | bool | number | string | array => exact nomatch hkept

theorem cleanTrees_cons_fst (name : String) (path : Json.Path) (index : Nat) (item : Json)
    (items : List Json) :
    (cleanTrees clean name path index (item :: items)).1 =
      (cleanNested clean (path ++ [.item index]) item).1.toList ++
        (cleanTrees clean name path (index + 1) items).1 := by
  rw [cleanTrees]
  cases cleanNested clean (path ++ [.item index]) item with
  | mk kept dropped =>
    cases kept with
    | none => rfl
    | some kept => rfl

theorem exists_of_mem_cleanTrees {name : String} {path : Json.Path} {index : Nat}
    {items : List Json} {kept : Json}
    (h : kept ∈ (cleanTrees clean name path index items).1) :
    ∃ item ∈ items, ∃ here, (cleanNested clean here item).1 = some kept := by
  induction items generalizing index with
  | nil => exact nomatch h
  | cons item items ih =>
    rw [cleanTrees_cons_fst, List.mem_append, Option.mem_toList] at h
    rcases h with h | h
    · exact ⟨item, List.mem_cons_self, _, h⟩
    · obtain ⟨item, hitem, here, hclean⟩ := ih h
      exact ⟨item, List.mem_cons_of_mem _ hitem, here, hclean⟩

theorem cleans_cleanNestedList (name : String) (h : CleansMembers clean Good) :
    Cleans (cleanNestedList clean name) (Json.ArrayOf (Json.ObjectOf Good)) := by
  refine ⟨fun path => rfl, fun path json kept hordered hkept => ?_⟩
  cases json with
  | array items =>
    obtain rfl := Option.some.inj hkept
    have hitems : ∀ kept ∈ (cleanTrees clean name path 0 items).1, ∃ item ∈ items,
        kept.Trims item ∧ kept.Ordered ∧ kept.ObjectOf Good := by
      intro kept hmem
      obtain ⟨item, hitem, here, hclean⟩ := exists_of_mem_cleanTrees hmem
      exact ⟨item, hitem, (cleans_cleanNested h).kept here item kept
        (Json.ordered_array_iff.1 hordered item hitem) hclean⟩
    rw [Json.ordered_array_iff]
    refine ⟨⟨items, rfl, ?_⟩, fun kept hmem => ?_, fun kept hmem => ?_⟩
    · rw [Json.trimsItems_iff]
      intro kept hmem
      obtain ⟨item, hitem, htrims, -⟩ := hitems kept hmem
      exact ⟨item, hitem, htrims⟩
    · obtain ⟨-, -, -, hkeeps, -⟩ := hitems kept hmem
      exact hkeeps
    · obtain ⟨-, -, -, -, hgood⟩ := hitems kept hmem
      exact hgood
  | null | bool | number | string | object => exact nomatch hkept

/-- The step of cleaning at one field, the other fields coming after. -/
theorem cleans_then {clean : Json.Path → Json → Cleaned Json} {Good : Json → Prop}
    (hclean : Cleans clean Good) (hgood : ∀ json orig, json.Trims orig → Good orig → Good json)
    (expected : String) (field : Label) {rest : Fields}
    (hrest : CleansMembers rest.clean rest.Fits) :
    CleansMembers
      (fun path members => rest.clean path (cleanKeys clean expected path field.keys members).1)
      (fun members => (∀ m ∈ field.own members, Good m.2) ∧ rest.Fits (field.others members)) := by
  intro path members h
  obtain ⟨htrims, hown⟩ := cleanKeys_spec hclean expected path field h
  obtain ⟨htrims', hordered, hfits⟩ := hrest path _ (ordered_cleanKeys hclean h)
  have hboth := htrims'.trans htrims
  refine ⟨hboth, hordered, fun m hm => ?_, ?_⟩
  · obtain ⟨orig, horig, ht⟩ := Label.exists_mem_own_of_trims htrims' hm
    exact hgood _ _ ht (hown _ horig)
  · exact fits_of_trims (field.others_trimsMembers _) hfits

theorem clean_plain_fst (field : Label) (kind : Kind) (rest : Fields) (path : Json.Path)
    (members : Json.Members) :
    ((plain field kind rest).clean path members).1 =
      (rest.clean path (cleanKeys kind.clean kind.describe path field.keys members).1).1 := by
  rw [Fields.clean]

theorem clean_nested_fst (field message : Label) (sub rest : Fields) (path : Json.Path)
    (members : Json.Members) :
    ((nested field message sub rest).clean path members).1 =
      (rest.clean path
        (cleanKeys (cleanNested sub.clean) message.name path field.keys members).1).1 := by
  rw [Fields.clean]

theorem clean_nestedList_fst (field message : Label) (sub rest : Fields) (path : Json.Path)
    (members : Json.Members) :
    ((nestedList field message sub rest).clean path members).1 =
      (rest.clean path (cleanKeys (cleanNestedList sub.clean message.name)
        ("list of " ++ message.name) path field.keys members).1).1 := by
  rw [Fields.clean]

/-- A cleaned document is a trimmed form of the document, and fits. -/
theorem cleansMembers (fields : Fields) : CleansMembers fields.clean fields.Fits := by
  induction fields with
  | nil => exact fun path members h => ⟨Json.trimsMembers_of_subset fun _ hm => hm, h, trivial⟩
  | plain field kind rest ih =>
    intro path members h
    rw [clean_plain_fst, Fits]
    exact cleans_then kind.cleans (fun _ _ => Kind.fits_of_trims) kind.describe field ih path
      members h
  | nested field message sub rest ihsub ih =>
    intro path members h
    rw [clean_nested_fst, Fits]
    exact cleans_then (cleans_cleanNested ihsub)
      (fun _ _ ht h => h.of_trims (fun _ _ => fits_of_trims) ht) message.name field ih path
      members h
  | nestedList field message sub rest ihsub ih =>
    intro path members h
    rw [clean_nestedList_fst, Fits]
    exact cleans_then (cleans_cleanNestedList message.name ihsub)
      (fun _ _ ht h => h.of_trims (fun _ _ => Json.ObjectOf.of_trims fun _ _ => fits_of_trims) ht)
      ("list of " ++ message.name) field ih path members h

end Fields

end LayeredConfig
