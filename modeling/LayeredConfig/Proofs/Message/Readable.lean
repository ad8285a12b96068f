import LayeredConfig.Proofs.Message.Gather
import LayeredConfig.Proofs.Message.RoundTrip

/-!
# When a fitting document is read

Reading is stricter than fitting in two ways.  A field must not be given twice,
under its two keys; and a number that is the key of a map entry must be spelled
the way it is written, without a plus sign or a leading zero.
`Fields.Readable` asks for both at every depth, and a document that fits is
read if and only if it is readable.  Where keys are unambiguous, it is read as
the tree that is gathered from it.
-/

namespace LayeredConfig

namespace Scalar

/-- A key that is spelled the way it is written.  Only numbers have several
spellings. -/
def Canonical : Scalar → String → Prop
  | int32, key => ∃ n, key = writeInt32 n
  | _, _ => True

theorem canonical_int32_iff {key : String} :
    int32.Canonical key ↔ (readInt32? key).map writeInt32 = some key := by
  rw [Canonical, Option.map_eq_some_iff]
  constructor
  · rintro ⟨n, rfl⟩
    exact ⟨n, readInt32?_writeInt32 n, rfl⟩
  · rintro ⟨n, -, hkey⟩
    exact ⟨n, hkey.symm⟩

instance instDecidableCanonical : (s : Scalar) → (key : String) → Decidable (s.Canonical key)
  | string, _ | bool, _ => isTrue trivial
  | int32, _ => decidable_of_iff _ canonical_int32_iff.symm

theorem canonical_iff_of_keyFits {s : Scalar} {key : String} (h : s.keyFits key = true) :
    s.Canonical key ↔ ∃ k, key = s.toText k := by
  cases s with
  | string => exact ⟨fun _ => ⟨key, rfl⟩, fun _ => trivial⟩
  | int32 => exact Iff.rfl
  | bool =>
    refine ⟨fun _ => ?_, fun _ => trivial⟩
    rw [keyFits, ofText?, readBool?] at h
    split at h
    · exact ⟨true, ‹_›⟩
    · split at h
      · exact ⟨false, ‹_›⟩
      · cases h

end Scalar

namespace Kind

/-- The keys of a map are spelled the way they are written. -/
def Readable : Kind → Json → Prop
  | leaf _, _ => True
  | list _, _ => True
  | map key _, json => json.ObjectOf fun entries => ∀ e ∈ entries, key.Canonical e.1

instance instDecidableReadable : (kind : Kind) → (json : Json) → Decidable (kind.Readable json)
  | leaf _, _ | list _, _ => isTrue trivial
  | map key _, json => inferInstanceAs
    (Decidable (json.ObjectOf fun entries => ∀ e ∈ entries, key.Canonical e.1))

theorem exists_gatherMember?_of_fits {key value : Scalar} {e : String × Json}
    (h : entryFits key value e = true) : ∃ entry, gatherMember? key value e = some entry := by
  obtain ⟨hkey, hvalue⟩ := Bool.and_eq_true_iff.1 h
  obtain ⟨k, hk⟩ := Option.isSome_iff_exists.1 hkey
  obtain ⟨v, hv⟩ := Option.isSome_iff_exists.1 hvalue
  have hv : value.ofJson? e.2 = some v := hv
  exact ⟨(k, v), by rw [gatherMember?, hk, hv]; rfl⟩

theorem decodeEntry_eq_ok_iff {key value : Scalar} {e : String × Json}
    (h : entryFits key value e = true) (entry : key.Val × value.Val) :
    decodeEntry key value e = .ok entry ↔
      key.Canonical e.1 ∧ gatherMember? key value e = some entry := by
  obtain ⟨hkey, hvalue⟩ := Bool.and_eq_true_iff.1 h
  obtain ⟨v, hv⟩ := Option.isSome_iff_exists.1 hvalue
  have hv : value.ofJson? e.2 = some v := hv
  rw [Scalar.canonical_iff_of_keyFits hkey]
  constructor
  · intro hread
    obtain ⟨k, hk, hread⟩ := bind_eq_ok_iff.1 hread
    rw [Scalar.decode_of_ofJson? hv] at hread
    obtain rfl := Except.ok.inj hread
    have hkey := Scalar.decodeKey_eq_ok_iff.1 hk
    refine ⟨⟨k, hkey⟩, ?_⟩
    rw [gatherMember?, hkey, key.ofText?_toText, hv]
    rfl
  · rintro ⟨⟨k, hkey⟩, hgather⟩
    rw [gatherMember?, hkey, key.ofText?_toText, hv] at hgather
    obtain rfl := Option.some.inj hgather
    rw [decodeEntry, Scalar.decodeKey_eq_ok_iff.2 hkey, Scalar.decode_of_ofJson? hv]
    rfl

theorem exists_gather?_of_fits {kind : Kind} {json : Json} (h : kind.Fits json) :
    ∃ slot, kind.gather? json = some slot := by
  cases kind with
  | leaf type =>
    obtain ⟨v, hv⟩ := Option.isSome_iff_exists.1 h
    exact ⟨some v, congrArg (Option.map some) hv⟩
  | list type =>
    cases json with
    | array items => exact ⟨_, rfl⟩
    | null | bool | number | string | object => exact h.elim
  | map key value =>
    cases json with
    | object entries => exact ⟨_, rfl⟩
    | null | bool | number | string | array => exact h.elim

theorem decode_leaf_eq_ok_iff {type : ValueType} {json : Json} (h : (leaf type).Fits json)
    (slot : Option type.Val) :
    (leaf type).decode json = .ok slot ↔ (leaf type).gather? json = some slot := by
  obtain ⟨v, hv⟩ := Option.isSome_iff_exists.1 h
  rw [decode_leaf_of_ofJson? hv, gather?, hv]
  exact ⟨fun h => congrArg some (Except.ok.inj h), fun h => congrArg Except.ok (Option.some.inj h)⟩

theorem mapM_decode_eq_ok_iff {type : ValueType} {items : List Json}
    (h : ∀ item ∈ items, type.fits item = true) {values : List type.Val} :
    items.mapM type.decode = .ok values ↔ items.filterMap type.ofJson? = values := by
  have hsome : ∀ item ∈ items, ∃ v, type.ofJson? item = some v :=
    fun item hitem => Option.isSome_iff_exists.1 (h item hitem)
  have hstep : ∀ item ∈ items, ∀ v, type.decode item = .ok v ↔
      True ∧ type.ofJson? item = some v := by
    intro item hitem v
    obtain ⟨w, hw⟩ := hsome item hitem
    rw [ValueType.decode_of_ofJson? hw, hw, true_and]
    exact ⟨fun h => congrArg _ (Except.ok.inj h), fun h => congrArg _ (Option.some.inj h)⟩
  rw [mapM_eq_ok_iff_filterMap hsome hstep]
  exact and_iff_right fun _ _ => trivial

theorem mapM_decodeEntry_eq_ok_iff {key value : Scalar} {entries : Json.Members}
    (h : ∀ e ∈ entries, entryFits key value e = true) {read : List (key.Val × value.Val)} :
    entries.mapM (decodeEntry key value) = .ok read ↔
      (∀ e ∈ entries, key.Canonical e.1) ∧
        entries.filterMap (gatherMember? key value) = read :=
  mapM_eq_ok_iff_filterMap (fun e he => exists_gatherMember?_of_fits (h e he))
    fun e he => decodeEntry_eq_ok_iff (h e he)

/-- A value that fits is read if it is readable, and as what is gathered from it. -/
theorem decode_eq_ok_iff {kind : Kind} {json : Json} (h : kind.Fits json) (slot : kind.Slot) :
    kind.decode json = .ok slot ↔ kind.Readable json ∧ kind.gather? json = some slot := by
  cases kind with
  | leaf type =>
    rw [decode_leaf_eq_ok_iff h slot]
    exact (and_iff_right trivial).symm
  | list type =>
    cases json with
    | array items =>
      refine (mapM_decode_eq_ok_iff h).trans ?_
      exact ⟨fun h => ⟨trivial, congrArg some h⟩, fun h => Option.some.inj h.2⟩
    | null | bool | number | string | object => exact h.elim
  | map key value =>
    cases json with
    | object entries =>
      constructor
      · intro hdecode
        obtain ⟨read, hentries, hdecode⟩ := bind_eq_ok_iff.1 hdecode
        obtain ⟨hkeys, rfl⟩ := (mapM_decodeEntry_eq_ok_iff h).1 hentries
        exact ⟨hkeys, congrArg some (Except.ok.inj hdecode)⟩
      · rintro ⟨hkeys, hgather⟩
        have hentries := (mapM_decodeEntry_eq_ok_iff h).2 ⟨hkeys, rfl⟩
        exact bind_eq_ok_iff.2 ⟨_, hentries, congrArg Except.ok (Option.some.inj hgather)⟩
    | null | bool | number | string | array => exact h.elim

end Kind

namespace Label

variable {α : Type} {field : Label} {members : Json.Members}

theorem own_cases (h : (field.own members).length ≤ 1) :
    field.own members = [] ∨ ∃ key json, field.own members = [(key, json)] := by
  rcases Nat.le_one_iff_eq_zero_or_eq_one.1 h with h | h
  · exact Or.inl (List.eq_nil_of_length_eq_zero h)
  · obtain ⟨m, hown⟩ := List.length_eq_one_iff.1 h
    exact Or.inr ⟨m.1, m.2, hown⟩

theorem exists_holds_iff {unset : α} {Reads : String → Json → α → Prop} :
    (∃ slot, field.Holds members unset Reads slot) ↔
      (field.own members).length ≤ 1 ∧ ∀ m ∈ field.own members, ∃ slot, Reads m.1 m.2 slot := by
  simp only [holds_iff]
  constructor
  · rintro ⟨slot, ⟨hown, -⟩ | ⟨key, json, hown, hread⟩⟩
    · rw [hown]
      exact ⟨Nat.zero_le 1, nofun⟩
    · rw [hown]
      exact ⟨Nat.le_refl 1, List.forall_mem_singleton.2 ⟨slot, hread⟩⟩
  · rintro ⟨hlength, hreads⟩
    rcases own_cases hlength with hown | ⟨key, json, hown⟩
    · exact ⟨unset, Or.inl ⟨hown, rfl⟩⟩
    · rw [hown, List.forall_mem_singleton] at hreads
      obtain ⟨slot, hread⟩ := hreads
      exact ⟨slot, Or.inr ⟨key, json, hown, hread⟩⟩

end Label

namespace Fields

/-- No field is given twice and every map is readable, at any depth. -/
def Readable : Fields → Json.Members → Prop
  | nil, _ => True
  | plain field kind rest, members =>
    ((field.own members).length ≤ 1 ∧ ∀ m ∈ field.own members, kind.Readable m.2) ∧
      rest.Readable (field.others members)
  | nested field _ sub rest, members =>
    ((field.own members).length ≤ 1 ∧ ∀ m ∈ field.own members, m.2.ObjectOf sub.Readable) ∧
      rest.Readable (field.others members)
  | nestedList field _ sub rest, members =>
    ((field.own members).length ≤ 1 ∧
      ∀ m ∈ field.own members, m.2.ArrayOf (Json.ObjectOf sub.Readable)) ∧
      rest.Readable (field.others members)

instance instDecidableReadable :
    (fields : Fields) → (members : Json.Members) → Decidable (fields.Readable members)
  | nil, _ => isTrue trivial
  | plain field kind rest, members =>
    have := instDecidableReadable rest
    inferInstanceAs (Decidable (((field.own members).length ≤ 1 ∧
      ∀ m ∈ field.own members, kind.Readable m.2) ∧ rest.Readable (field.others members)))
  | nested field _ sub rest, members =>
    have : DecidablePred sub.Readable := instDecidableReadable sub
    have := instDecidableReadable rest
    inferInstanceAs (Decidable (((field.own members).length ≤ 1 ∧
      ∀ m ∈ field.own members, m.2.ObjectOf sub.Readable) ∧ rest.Readable (field.others members)))
  | nestedList field _ sub rest, members =>
    have : DecidablePred sub.Readable := instDecidableReadable sub
    have := instDecidableReadable rest
    inferInstanceAs (Decidable (((field.own members).length ≤ 1 ∧
      ∀ m ∈ field.own members, m.2.ArrayOf (Json.ObjectOf sub.Readable)) ∧
        rest.Readable (field.others members)))

end Fields

section Sub

variable {sub : Fields} {name : String} {path : Json.Path}
  (hsub : ∀ path members, sub.Fits members →
    ((∃ tree, Held sub path members tree) ↔ sub.Readable members))

include hsub

theorem exists_gives_tree_iff {json : Json} (h : json.ObjectOf sub.Fits) :
    (∃ tree, Gives ((Decoder.ofFields sub).tree name path json) tree) ↔
      json.ObjectOf sub.Readable := by
  cases json with
  | object members =>
    simp only [gives_tree_object_iff]
    exact hsub path members h
  | null | bool | number | string | array => exact h.elim

theorem exists_gives_optional_iff {json : Json} (h : json.ObjectOf sub.Fits) :
    (∃ slot, Gives ((Decoder.ofFields sub).optional name path json) slot) ↔
      json.ObjectOf sub.Readable := by
  cases json with
  | object members =>
    simp only [gives_optional_object_iff]
    refine Iff.trans ?_ (hsub (path ++ [.present]) members h)
    exact ⟨fun ⟨_, tree, htree, _⟩ => ⟨tree, htree⟩, fun ⟨tree, htree⟩ => ⟨_, tree, htree, rfl⟩⟩
  | null | bool | number | string | array => exact h.elim

theorem exists_gives_trees_iff {index : Nat} {items : List Json}
    (h : ∀ item ∈ items, item.ObjectOf sub.Fits) :
    (∃ trees, Gives ((Decoder.ofFields sub).trees name path index items) trees) ↔
      ∀ item ∈ items, item.ObjectOf sub.Readable := by
  induction items generalizing index with
  | nil => exact ⟨fun _ => nofun, fun _ => ⟨[], gives_ok_iff.2 rfl⟩⟩
  | cons item items ih =>
    obtain ⟨hitem, hitems⟩ := List.forall_mem_cons.1 h
    rw [List.forall_mem_cons, ← exists_gives_tree_iff hsub hitem, ← ih hitems]
    simp only [gives_trees_cons_iff]
    constructor
    · rintro ⟨_, tree, htree, others, hothers, -⟩
      exact ⟨⟨tree, htree⟩, ⟨others, hothers⟩⟩
    · rintro ⟨⟨tree, htree⟩, ⟨others, hothers⟩⟩
      exact ⟨_, tree, htree, others, hothers, rfl⟩

theorem exists_gives_list_iff {json : Json} (h : json.ArrayOf (Json.ObjectOf sub.Fits)) :
    (∃ trees, Gives ((Decoder.ofFields sub).list name path json) trees) ↔
      json.ArrayOf (Json.ObjectOf sub.Readable) := by
  cases json with
  | array items => exact exists_gives_trees_iff hsub h
  | null | bool | number | string | object => exact h.elim

end Sub

theorem exists_pair_iff {α β : Type} {P : α × β → Prop} {A : α → Prop} {B : β → Prop}
    (h : ∀ a b, P (a, b) ↔ A a ∧ B b) : (∃ pair, P pair) ↔ (∃ a, A a) ∧ ∃ b, B b := by
  constructor
  · rintro ⟨⟨a, b⟩, hpair⟩
    obtain ⟨ha, hb⟩ := (h a b).1 hpair
    exact ⟨⟨a, ha⟩, ⟨b, hb⟩⟩
  · rintro ⟨⟨a, ha⟩, ⟨b, hb⟩⟩
    exact ⟨(a, b), (h a b).2 ⟨ha, hb⟩⟩

/-- An object that fits is read as some tree if and only if it is readable. -/
theorem exists_held_iff {fields : Fields} {path : Json.Path} {members : Json.Members}
    (hfits : fields.Fits members) :
    (∃ tree, Held fields path members tree) ↔ fields.Readable members := by
  induction fields generalizing path members with
  | nil => exact ⟨fun _ => trivial, fun _ => ⟨(), held_nil⟩⟩
  | plain field kind rest ih =>
    obtain ⟨hown, hrest⟩ := hfits
    refine (exists_pair_iff fun _ _ => held_plain_iff).trans (and_congr ?_ (ih hrest))
    refine Label.exists_holds_iff.trans (and_congr_right fun _ => forall₂_congr fun m hm => ?_)
    obtain ⟨slot, hslot⟩ := Kind.exists_gather?_of_fits (hown m hm)
    refine (exists_congr (Kind.decode_eq_ok_iff (hown m hm))).trans ?_
    exact ⟨fun ⟨_, hread, _⟩ => hread, fun hread => ⟨slot, hread, hslot⟩⟩
  | nested field message sub rest ihsub ih =>
    obtain ⟨hown, hrest⟩ := hfits
    refine (exists_pair_iff fun _ _ => held_nested_iff).trans (and_congr ?_ (ih hrest))
    refine Label.exists_holds_iff.trans (and_congr_right fun _ => forall₂_congr fun m hm => ?_)
    exact exists_gives_optional_iff (fun _ _ => ihsub) (hown m hm)
  | nestedList field message sub rest ihsub ih =>
    obtain ⟨hown, hrest⟩ := hfits
    refine (exists_pair_iff fun _ _ => held_nestedList_iff).trans (and_congr ?_ (ih hrest))
    refine Label.exists_holds_iff.trans (and_congr_right fun _ => forall₂_congr fun m hm => ?_)
    exact exists_gives_list_iff (fun _ _ => ihsub) (hown m hm)

/-! ## What a readable object is read as -/

namespace Label

variable {α β : Type} {field : Label} {members : Json.Members}

theorem findSome?_eq_of_unique {f : α → Option β} {l : List α} {a : α} (ha : a ∈ l)
    (h : ∀ b ∈ l, b ≠ a → f b = none) : l.findSome? f = f a := by
  induction l with
  | nil => exact nomatch ha
  | cons b l ih =>
    obtain ⟨hb, hl⟩ := List.forall_mem_cons.1 h
    rw [List.findSome?_cons]
    by_cases heq : b = a
    · subst heq
      cases hfb : f b with
      | some v => rfl
      | none =>
        refine List.findSome?_eq_none_iff.2 fun c hc => ?_
        by_cases hcb : c = b
        · exact hcb ▸ hfb
        · exact hl c hc hcb
    · have hmem := (List.mem_cons.1 ha).resolve_left (Ne.symm heq)
      rw [hb heq]
      exact ih hmem hl

theorem find?_eq_none_of_own {key : String} (hkey : key ∈ field.keys)
    (h : ∀ m ∈ field.own members, m.1 ≠ key) : Assoc.find? key members = none := by
  rw [Assoc.find?_eq_none_iff]
  rintro hmem
  obtain ⟨m, hm, rfl⟩ := List.mem_map.1 hmem
  exact h m (mem_own_iff.2 ⟨hm, hkey⟩) rfl

theorem look_of_own_eq_nil {read? : Json → Option α} (h : field.own members = []) :
    field.look read? members = none := by
  refine List.findSome?_eq_none_iff.2 fun key hkey => ?_
  rw [find?_eq_none_of_own hkey (by rw [h]; exact nofun)]
  rfl

theorem look_of_own_eq_singleton {read? : Json → Option α} (hsorted : Assoc.Sorted members)
    {key : String} {json : Json} (h : field.own members = [(key, json)]) :
    field.look read? members = read? json := by
  have hown : (key, json) ∈ field.own members := by
    rw [h]
    exact List.mem_singleton_self _
  obtain ⟨hmem, hkey⟩ := mem_own_iff.1 hown
  refine (findSome?_eq_of_unique hkey fun other hother hne => ?_).trans ?_
  · rw [find?_eq_none_of_own hother (by rw [h]; exact List.forall_mem_singleton.2 hne.symm)]
    rfl
  · rw [(Assoc.find?_eq_some_iff hsorted.nodup_keys).2 hmem, Option.bind_some]

theorem look_cases {read? : Json → Option α} (hsorted : Assoc.Sorted members)
    (h : (field.own members).length ≤ 1) :
    (field.own members = [] ∧ field.look read? members = none) ∨
      ∃ key json, field.own members = [(key, json)] ∧ field.look read? members = read? json := by
  rcases own_cases h with hown | ⟨key, json, hown⟩
  · exact Or.inl ⟨hown, look_of_own_eq_nil hown⟩
  · exact Or.inr ⟨key, json, hown, look_of_own_eq_singleton hsorted hown⟩

theorem holds_look {read? : Json → Option α} {unset : α} {Reads : String → Json → α → Prop}
    (hsorted : Assoc.Sorted members) (hlength : (field.own members).length ≤ 1)
    (hreads : ∀ m ∈ field.own members, ∃ value, read? m.2 = some value ∧ Reads m.1 m.2 value) :
    field.Holds members unset Reads ((field.look read? members).getD unset) := by
  rw [holds_iff]
  rcases look_cases hsorted hlength with ⟨hown, hlook⟩ | ⟨key, json, hown, hlook⟩
  · exact Or.inl ⟨hown, congrArg (·.getD unset) hlook⟩
  · rw [hown, List.forall_mem_singleton] at hreads
    obtain ⟨value, hvalue, hread⟩ := hreads
    rw [hlook, hvalue]
    exact Or.inr ⟨key, json, hown, hread⟩

theorem holds_look_some {read? : Json → Option α} {Reads : String → Json → Option α → Prop}
    (hsorted : Assoc.Sorted members) (hlength : (field.own members).length ≤ 1)
    (hreads : ∀ m ∈ field.own members, ∃ value, read? m.2 = some value ∧
      Reads m.1 m.2 (some value)) :
    field.Holds members none Reads (field.look read? members) := by
  rw [holds_iff]
  rcases look_cases hsorted hlength with ⟨hown, hlook⟩ | ⟨key, json, hown, hlook⟩
  · exact Or.inl ⟨hown, hlook⟩
  · rw [hown, List.forall_mem_singleton] at hreads
    obtain ⟨value, hvalue, hread⟩ := hreads
    rw [hlook, hvalue]
    exact Or.inr ⟨key, json, hown, hread⟩

theorem find?_others {key : String} (h : key ∉ field.keys) :
    Assoc.find? key (field.others members) = Assoc.find? key members := by
  refine (Assoc.find?_filter (fun key => !field.keys.contains key) key members).trans (if_pos ?_)
  simpa using h

theorem ordered_others (h : (Json.object members).Ordered) :
    (Json.object (field.others members)).Ordered := by
  obtain ⟨hsorted, hmembers⟩ := Json.ordered_object_iff.1 h
  exact Json.ordered_object_iff.2
    ⟨hsorted.filter _, fun m hm => hmembers m (mem_others_iff.1 hm).1⟩

end Label

theorem Tree.gather_others {field : Label} {rest : Fields} {members : Json.Members}
    (h : ∀ key ∈ field.keys, key ∉ rest.keys) :
    gather rest (field.others members) = gather rest members :=
  gather_congr fun key hrest => Label.find?_others fun hkey => h key hkey hrest

section Sub

variable {sub : Fields} {name : String} {path : Json.Path}
  (hsub : ∀ path members, (Json.object members).Ordered → sub.Fits members →
    sub.Readable members → Held sub path members (Tree.gather sub members))

include hsub

theorem exists_gather_of_object {json : Json} (hordered : json.Ordered)
    (hfits : json.ObjectOf sub.Fits) (hreadable : json.ObjectOf sub.Readable) :
    ∃ tree, json.members?.map (Tree.gather sub) = some tree ∧
      Gives ((Decoder.ofFields sub).tree name path json) tree ∧
      Gives ((Decoder.ofFields sub).optional name path json) (some tree) := by
  cases json with
  | object members =>
    have hheld := fun path => hsub path members hordered hfits hreadable
    exact ⟨_, rfl, gives_tree_object_iff.2 (hheld _),
      gives_optional_object_iff.2 ⟨_, hheld _, rfl⟩⟩
  | null | bool | number | string | array => exact hfits.elim

theorem gives_trees_gather {index : Nat} {items : List Json}
    (hordered : ∀ item ∈ items, item.Ordered) (hfits : ∀ item ∈ items, item.ObjectOf sub.Fits)
    (hreadable : ∀ item ∈ items, item.ObjectOf sub.Readable) :
    Gives ((Decoder.ofFields sub).trees name path index items)
      (items.filterMap fun item => item.members?.map (Tree.gather sub)) := by
  induction items generalizing index with
  | nil => exact gives_ok_iff.2 rfl
  | cons item items ih =>
    rw [List.forall_mem_cons] at hordered hfits hreadable
    obtain ⟨tree, htree, hgives, -⟩ :=
      exists_gather_of_object hsub hordered.1 hfits.1 hreadable.1
    refine gives_trees_cons_iff.2
      ⟨tree, hgives, _, ih hordered.2 hfits.2 hreadable.2, ?_⟩
    rw [List.filterMap_cons, htree]

theorem exists_gather_of_array {json : Json} (hordered : json.Ordered)
    (hfits : json.ArrayOf (Json.ObjectOf sub.Fits))
    (hreadable : json.ArrayOf (Json.ObjectOf sub.Readable)) :
    ∃ trees, (json.items?.map fun items =>
        items.filterMap fun item => item.members?.map (Tree.gather sub)) = some trees ∧
      Gives ((Decoder.ofFields sub).list name path json) trees := by
  cases json with
  | array items =>
    rw [Json.ordered_array_iff] at hordered
    exact ⟨_, rfl, gives_trees_gather hsub hordered hfits hreadable⟩
  | null | bool | number | string | object => exact hfits.elim

end Sub

/-- Where keys are unambiguous, a readable object that fits is read as what is
gathered from it. -/
theorem held_gather {fields : Fields} (hkeys : fields.Unambiguous) {path : Json.Path}
    {members : Json.Members} (hordered : (Json.object members).Ordered)
    (hfits : fields.Fits members) (hreadable : fields.Readable members) :
    Held fields path members (Tree.gather fields members) := by
  induction fields generalizing path members with
  | nil => exact held_nil
  | plain field kind rest ih =>
    obtain ⟨hfield, hrest⟩ := hkeys
    obtain ⟨hown, hothers⟩ := hfits
    obtain ⟨⟨hlength, hread⟩, hmore⟩ := hreadable
    have hheld : Held rest path _ _ := ih hrest (Label.ordered_others hordered) hothers hmore
    rw [Tree.gather_others hfield] at hheld
    obtain ⟨hsorted, -⟩ := Json.ordered_object_iff.1 hordered
    refine held_plain_iff.2 ⟨Label.holds_look hsorted hlength fun m hm => ?_, hheld⟩
    obtain ⟨slot, hslot⟩ := Kind.exists_gather?_of_fits (hown m hm)
    exact ⟨slot, hslot, (Kind.decode_eq_ok_iff (hown m hm) slot).2 ⟨hread m hm, hslot⟩⟩
  | nested field message sub rest ihsub ih =>
    obtain ⟨hfield, hkeysub, hrest⟩ := hkeys
    obtain ⟨hown, hothers⟩ := hfits
    obtain ⟨⟨hlength, hread⟩, hmore⟩ := hreadable
    have hheld : Held rest path _ _ := ih hrest (Label.ordered_others hordered) hothers hmore
    rw [Tree.gather_others hfield] at hheld
    obtain ⟨hsorted, hvalues⟩ := Json.ordered_object_iff.1 hordered
    refine held_nested_iff.2 ⟨Label.holds_look_some hsorted hlength fun m hm => ?_, hheld⟩
    have hvalue := hvalues m (Label.mem_own_iff.1 hm).1
    obtain ⟨tree, htree, -, hgives⟩ :=
      exists_gather_of_object (fun _ _ => ihsub hkeysub) hvalue (hown m hm) (hread m hm)
    exact ⟨tree, htree, hgives⟩
  | nestedList field message sub rest ihsub ih =>
    obtain ⟨hfield, hkeysub, hrest⟩ := hkeys
    obtain ⟨hown, hothers⟩ := hfits
    obtain ⟨⟨hlength, hread⟩, hmore⟩ := hreadable
    have hheld : Held rest path _ _ := ih hrest (Label.ordered_others hordered) hothers hmore
    rw [Tree.gather_others hfield] at hheld
    obtain ⟨hsorted, hvalues⟩ := Json.ordered_object_iff.1 hordered
    refine held_nestedList_iff.2 ⟨Label.holds_look hsorted hlength fun m hm => ?_, hheld⟩
    have hvalue := hvalues m (Label.mem_own_iff.1 hm).1
    exact exists_gather_of_array (fun _ _ => ihsub hkeysub) hvalue (hown m hm) (hread m hm)

end LayeredConfig
