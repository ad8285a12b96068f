import LayeredConfig.Proofs.Message.Gather

/-!
# Documents that are used as they are

A member is taken if the first field with its key can hold its value as a whole,
at every depth (`Fields.Takes`).  Where all members are taken, reading knows
every one of them (`quiet_decode`), and where keys are unambiguous as well,
cleaning has nothing to remove (`Fields.clean_eq_self`).
-/

namespace LayeredConfig

/-- The first field with the key of a member holds its value as a whole. -/
def Fields.Takes : Fields → String × Json → Prop
  | nil, _ => False
  | plain field kind rest, m => if m.1 ∈ field.keys then kind.Fits m.2 else rest.Takes m
  | nested field _ sub rest, m =>
    if m.1 ∈ field.keys then m.2.ObjectOf fun members => ∀ m ∈ members, sub.Takes m
    else rest.Takes m
  | nestedList field _ sub rest, m =>
    if m.1 ∈ field.keys then
      m.2.ArrayOf (Json.ObjectOf fun members => ∀ m ∈ members, sub.Takes m)
    else rest.Takes m

namespace Json

variable {p q : Json → Prop} {P Q : Members → Prop} {json : Json}

theorem ObjectOf.mono (hPQ : ∀ members, P members → Q members) (h : json.ObjectOf P) :
    json.ObjectOf Q := by
  cases json with
  | object members => exact hPQ members h
  | null | bool | number | string | array => exact h

theorem ArrayOf.mono (hpq : ∀ item, p item → q item) (h : json.ArrayOf p) : json.ArrayOf q := by
  cases json with
  | array items => exact fun item hitem => hpq item (h item hitem)
  | null | bool | number | string | object => exact h

theorem ObjectOf.exists_eq (h : json.ObjectOf P) : ∃ members, json = .object members := by
  cases json with
  | object members => exact ⟨members, rfl⟩
  | null | bool | number | string | array => exact h.elim

theorem ArrayOf.exists_eq (h : json.ArrayOf p) : ∃ items, json = .array items := by
  cases json with
  | array items => exact ⟨items, rfl⟩
  | null | bool | number | string | object => exact h.elim

theorem ObjectOf.ne_null (h : json.ObjectOf P) : json ≠ .null := by
  rintro rfl
  exact h

theorem ArrayOf.ne_null (h : json.ArrayOf p) : json ≠ .null := by
  rintro rfl
  exact h

end Json

/-! ## Nothing is removed -/

namespace ValueType

theorem cleanItems_eq_self {t : ValueType} {items : List Json}
    (h : ∀ item ∈ items, t.fits item = true) (path : Json.Path) (index : Nat) :
    t.cleanItems path index items = (items, []) := by
  induction items generalizing index with
  | nil => rfl
  | cons item items ih =>
    obtain ⟨hitem, hitems⟩ := List.forall_mem_cons.1 h
    simp [cleanItems, ih hitems, hitem]

end ValueType

namespace Kind

theorem cleanEntries_eq_self {key value : Scalar} {entries : Json.Members}
    (h : ∀ e ∈ entries, entryFits key value e = true) (path : Json.Path) :
    cleanEntries key value path entries = (entries, []) := by
  induction entries with
  | nil => rfl
  | cons e entries ih =>
    obtain ⟨k, json⟩ := e
    obtain ⟨he, hentries⟩ := List.forall_mem_cons.1 h
    have hfits := Bool.and_eq_true_iff.1 he
    simp [cleanEntries, ih hentries, hfits.1, hfits.2]

theorem ne_null_of_fits {kind : Kind} {json : Json} (h : kind.Fits json) : json ≠ .null := by
  rintro rfl
  cases kind with
  | leaf type =>
    cases type with
    | scalar s => cases s <;> cases h
    | enum e => cases h
  | list type => exact h
  | map key value => exact h

theorem clean_eq_self {kind : Kind} {json : Json} (h : kind.Fits json) (path : Json.Path) :
    kind.clean path json = (some json, []) := by
  cases kind with
  | leaf type => exact if_pos h
  | list type =>
    cases json with
    | array items => simp [clean, ValueType.cleanItems_eq_self h]
    | null | bool | number | string | object => exact h.elim
  | map key value =>
    cases json with
    | object entries => simp [clean, cleanEntries_eq_self h]
    | null | bool | number | string | array => exact h.elim

end Kind

namespace Fields

variable {clean : Json.Path → Json → Cleaned Json} {expected : String} {path : Json.Path}
  {members : Json.Members}

theorem cleanKey_eq_self {key : String} (hsorted : Assoc.Sorted members)
    (h : ∀ json, (key, json) ∈ members → json ≠ .null ∧
      ∀ path, clean path json = (some json, [])) :
    cleanKey clean expected path key members = (members, []) := by
  unfold cleanKey
  split
  · rfl
  · rename_i hfind
    exact absurd rfl (h _ (Assoc.mem_of_find?_eq_some hfind)).1
  · rename_i json _ hfind
    have hjson := (h json (Assoc.mem_of_find?_eq_some hfind)).2
    simp [hjson, hsorted.insert_of_find? hfind]

theorem cleanKeys_eq_self {keys : List String} (hsorted : Assoc.Sorted members)
    (h : ∀ m ∈ members, m.1 ∈ keys → m.2 ≠ .null ∧ ∀ path, clean path m.2 = (some m.2, [])) :
    cleanKeys clean expected path keys members = (members, []) := by
  induction keys with
  | nil => rfl
  | cons key keys ih =>
    have hkey : cleanKey clean expected path key members = (members, []) :=
      cleanKey_eq_self hsorted fun json hm => h _ hm List.mem_cons_self
    have hkeys := ih fun m hm hmem => h m hm (List.mem_cons_of_mem _ hmem)
    simp [cleanKeys, hkey, hkeys]

theorem cleanTrees_eq_self {clean : Json.Path → Json.Members → Json.Members × List Mistyped}
    {items : List Json} (h : ∀ item ∈ items, ∀ path, cleanNested clean path item = (some item, []))
    (name : String) (path : Json.Path) (index : Nat) :
    cleanTrees clean name path index items = (items, []) := by
  induction items generalizing index with
  | nil => rfl
  | cons item items ih =>
    obtain ⟨hitem, hitems⟩ := List.forall_mem_cons.1 h
    simp [cleanTrees, ih hitems, hitem]

theorem cleanNested_eq_self {clean : Json.Path → Json.Members → Json.Members × List Mistyped}
    {P : Json.Members → Prop} {json : Json} (h : json.ObjectOf P) (hordered : json.Ordered)
    (hclean : ∀ path members, (Json.object members).Ordered → P members →
      clean path members = (members, [])) (path : Json.Path) :
    cleanNested clean path json = (some json, []) := by
  cases json with
  | object members => simp [cleanNested, hclean path members hordered h]
  | null | bool | number | string | array => exact h.elim

theorem cleanNestedList_eq_self {clean : Json.Path → Json.Members → Json.Members × List Mistyped}
    {P : Json.Members → Prop} {json : Json} (h : json.ArrayOf (Json.ObjectOf P))
    (hordered : json.Ordered)
    (hclean : ∀ path members, (Json.object members).Ordered → P members →
      clean path members = (members, [])) (name : String) (path : Json.Path) :
    cleanNestedList clean name path json = (some json, []) := by
  cases json with
  | array items =>
    have hitems : ∀ item ∈ items, ∀ path, cleanNested clean path item = (some item, []) := by
      intro item hitem
      have hitemOrdered := Json.ordered_array_iff.1 hordered item hitem
      exact cleanNested_eq_self (h item hitem) hitemOrdered hclean
    simp [cleanNestedList, cleanTrees_eq_self hitems]
  | null | bool | number | string | object => exact h.elim

/-- Members that are taken, seen from one field and from the fields after it. -/
theorem own_and_others_of_takes {field : Label} {rest : Fields} {P : Json → Prop}
    (hkeys : ∀ key ∈ field.keys, key ∉ rest.keys)
    (h : ∀ m ∈ members, m.1 ∈ field.keys ++ rest.keys →
      if m.1 ∈ field.keys then P m.2 else rest.Takes m) :
    (∀ m ∈ members, m.1 ∈ field.keys → P m.2) ∧
      ∀ m ∈ members, m.1 ∈ rest.keys → rest.Takes m := by
  refine ⟨fun m hm hkey => ?_, fun m hm hkey => ?_⟩
  · have hm := h m hm (List.mem_append_left _ hkey)
    rwa [if_pos hkey] at hm
  · have hm := h m hm (List.mem_append_right _ hkey)
    rwa [if_neg fun hown => hkeys m.1 hown hkey] at hm

/-- Where keys are unambiguous, members that are taken are kept as they are, with nothing
to report. -/
theorem clean_eq_self {fields : Fields} (hkeys : fields.Unambiguous) {members : Json.Members}
    (hordered : (Json.object members).Ordered)
    (h : ∀ m ∈ members, m.1 ∈ fields.keys → fields.Takes m) (path : Json.Path) :
    fields.clean path members = (members, []) := by
  induction fields generalizing path members with
  | nil => rfl
  | plain field kind rest ih =>
    obtain ⟨hfield, hrest⟩ := hkeys
    obtain ⟨hsorted, -⟩ := Json.ordered_object_iff.1 hordered
    simp only [keys_plain, Takes] at h
    obtain ⟨hown, hothers⟩ := own_and_others_of_takes hfield h
    have hkept : ∀ expected, cleanKeys kind.clean expected path field.keys members =
        (members, []) := by
      intro expected
      refine cleanKeys_eq_self hsorted fun m hm hkey => ?_
      exact ⟨Kind.ne_null_of_fits (hown m hm hkey), Kind.clean_eq_self (hown m hm hkey)⟩
    simp [Fields.clean, hkept, ih hrest hordered hothers]
  | nested field message sub rest ihsub ih =>
    obtain ⟨hfield, hsub, hrest⟩ := hkeys
    obtain ⟨hsorted, hvalues⟩ := Json.ordered_object_iff.1 hordered
    simp only [keys_nested, Takes] at h
    obtain ⟨hown, hothers⟩ := own_and_others_of_takes hfield h
    have hkept : ∀ expected, cleanKeys (cleanNested sub.clean) expected path field.keys members =
        (members, []) := by
      intro expected
      refine cleanKeys_eq_self hsorted fun m hm hkey => ?_
      exact ⟨(hown m hm hkey).ne_null, cleanNested_eq_self (hown m hm hkey) (hvalues m hm)
        fun path _ hordered hall => ihsub hsub hordered (fun m hm _ => hall m hm) path⟩
    simp [Fields.clean, hkept, ih hrest hordered hothers]
  | nestedList field message sub rest ihsub ih =>
    obtain ⟨hfield, hsub, hrest⟩ := hkeys
    obtain ⟨hsorted, hvalues⟩ := Json.ordered_object_iff.1 hordered
    simp only [keys_nestedList, Takes] at h
    obtain ⟨hown, hothers⟩ := own_and_others_of_takes hfield h
    have hkept : ∀ expected, cleanKeys (cleanNestedList sub.clean message.name) expected path
        field.keys members = (members, []) := by
      intro expected
      refine cleanKeys_eq_self hsorted fun m hm hkey => ?_
      exact ⟨(hown m hm hkey).ne_null, cleanNestedList_eq_self (hown m hm hkey) (hvalues m hm)
        (fun path _ hordered hall => ihsub hsub hordered (fun m hm _ => hall m hm) path) _⟩
    simp [Fields.clean, hkept, ih hrest hordered hothers]

end Fields

/-! ## Nothing is unknown -/

/-- A reading that knows every member. -/
def Quiet {α : Type} (reading : Except DecodeError (Noted α)) : Prop :=
  ∀ value unknown, reading = .ok (value, unknown) → unknown = []

namespace Quiet

variable {α β : Type}

theorem ok (value : α) : Quiet (.ok (value, [])) := by
  intro value' unknown h
  cases h
  rfl

theorem error (error : DecodeError) : Quiet (.error error : Except DecodeError (Noted α)) := by
  intro value unknown h
  cases h

theorem bind {reading : Except DecodeError (Noted α)}
    {next : Noted α → Except DecodeError (Noted β)} (h : Quiet reading)
    (hnext : ∀ a, Quiet (next (a, []))) : Quiet (reading >>= next) := by
  intro value unknown hread
  obtain ⟨⟨a, first⟩, ha, hread⟩ := bind_eq_ok_iff.1 hread
  obtain rfl := h a first ha
  exact hnext a value unknown hread

end Quiet

namespace Decoder

variable {fields : Fields} {decoder : Decoder fields} {members : Json.Members}

/-- The decoder knows a member, wherever it meets it. -/
def Knows (decoder : Decoder fields) (m : String × Json) : Prop :=
  ∀ path draft, Quiet (decoder.member path m.1 m.2 draft)

theorem quiet_members (h : ∀ m ∈ members, decoder.Knows m) (path : Json.Path)
    (draft : Draft fields) : Quiet (decoder.members path members draft) := by
  induction members generalizing draft with
  | nil => exact Quiet.ok draft
  | cons m members ih =>
    obtain ⟨hm, hmembers⟩ := List.forall_mem_cons.1 h
    refine Quiet.bind (hm path draft) fun draft => ?_
    exact Quiet.bind (ih hmembers draft) fun draft => Quiet.ok draft

theorem quiet_tree {json : Json} (h : json.ObjectOf fun members => ∀ m ∈ members, decoder.Knows m)
    (name : String) (path : Json.Path) : Quiet (decoder.tree name path json) := by
  cases json with
  | object members => exact Quiet.bind (quiet_members h path _) fun draft => Quiet.ok _
  | null | bool | number | string | array => exact h.elim

theorem quiet_optional {json : Json}
    (h : json.ObjectOf fun members => ∀ m ∈ members, decoder.Knows m) (name : String)
    (path : Json.Path) : Quiet (decoder.optional name path json) := by
  cases json with
  | object members => exact Quiet.bind (quiet_tree h name _) fun tree => Quiet.ok _
  | null | bool | number | string | array => exact h.elim

theorem quiet_trees {items : List Json}
    (h : ∀ item ∈ items, item.ObjectOf fun members => ∀ m ∈ members, decoder.Knows m)
    (name : String) (path : Json.Path) (index : Nat) :
    Quiet (decoder.trees name path index items) := by
  induction items generalizing index with
  | nil => exact Quiet.ok []
  | cons item items ih =>
    obtain ⟨hitem, hitems⟩ := List.forall_mem_cons.1 h
    refine Quiet.bind (quiet_tree hitem name _) fun tree => ?_
    exact Quiet.bind (ih hitems (index + 1)) fun trees => Quiet.ok _

theorem quiet_list {json : Json}
    (h : json.ArrayOf (Json.ObjectOf fun members => ∀ m ∈ members, decoder.Knows m))
    (name : String) (path : Json.Path) : Quiet (decoder.list name path json) := by
  cases json with
  | array items => exact quiet_trees h name path 0
  | null | bool | number | string | object => exact h.elim

theorem quiet_plain (kind : Kind) (path : Json.Path) (json : Json) :
    Quiet (plain kind path json) := by
  intro value unknown h
  obtain ⟨slot, -, h⟩ := bind_eq_ok_iff.1 h
  cases h
  rfl

/-- A member is known to its own field if its value is read without an unknown member, and
otherwise if the fields after it know it. -/
theorem quiet_memberCons {α : Type} {field : Label}
    {read : Json.Path → Json → Except DecodeError (Noted α)} {m : String × Json}
    (hread : m.1 ∈ field.keys → ∀ path, Quiet (read path m.2))
    (hrest : m.1 ∉ field.keys → decoder.Knows m) (path : Json.Path)
    (draft : Option α × Draft fields) :
    Quiet (memberCons field read decoder path m.1 m.2 draft) := by
  obtain ⟨slot, draft⟩ := draft
  by_cases hkey : m.1 ∈ field.keys
  · simp only [memberCons, List.contains_iff_mem.2 hkey, if_true]
    cases slot with
    | some value => exact Quiet.error _
    | none => exact Quiet.bind (hread hkey _) fun value => Quiet.ok _
  · simp only [memberCons, mt List.contains_iff_mem.1 hkey]
    exact Quiet.bind (hrest hkey path draft) fun draft => Quiet.ok _

theorem knows_of_takes {fields : Fields} {m : String × Json} (h : fields.Takes m) :
    (ofFields fields).Knows m := by
  induction fields generalizing m with
  | nil => exact h.elim
  | plain field kind rest ih =>
    intro path
    rw [Fields.Takes] at h
    rw [member_ofFields_plain]
    refine quiet_memberCons (fun hkey path => quiet_plain kind path m.2) (fun hkey => ?_) path
    rw [if_neg hkey] at h
    exact ih h
  | nested field message sub rest ihsub ih =>
    intro path
    rw [Fields.Takes] at h
    rw [member_ofFields_nested]
    refine quiet_memberCons (fun hkey => ?_) (fun hkey => ?_) path
    · rw [if_pos hkey] at h
      exact quiet_optional (h.mono fun _ hall m hm => ihsub (hall m hm)) message.name
    · rw [if_neg hkey] at h
      exact ih h
  | nestedList field message sub rest ihsub ih =>
    intro path
    rw [Fields.Takes] at h
    rw [member_ofFields_nestedList]
    refine quiet_memberCons (fun hkey => ?_) (fun hkey => ?_) path
    · rw [if_pos hkey] at h
      refine quiet_list (h.mono fun _ hitem => ?_) message.name
      exact hitem.mono fun _ hall m hm => ihsub (hall m hm)
    · rw [if_neg hkey] at h
      exact ih h

end Decoder

theorem Message.quiet_decode {message : Message} {members : Json.Members}
    (h : ∀ m ∈ members, message.fields.Takes m) : Quiet (message.decode (.object members)) := by
  refine Decoder.quiet_tree ?_ message.label.name []
  exact fun m hm => Decoder.knows_of_takes (h m hm)

end LayeredConfig
