import LayeredConfig.Message.Decode
import LayeredConfig.Proofs.Except

/-!
# What an object is read as

Reading visits the members of an object in order and hands each one down the
chain of fields.  Seen from one field, this splits the object: the members
under one of the field's keys (`Label.own`) are its own, and only the others
ever reach the fields after it.  A field has at most one member of its own, or
reading fails.

`Held fields path members tree` says that an object is read as a tree.  The
`held_…_iff` lemmas give it field by field, so that later proofs recurse along
the chain of fields and never follow the members.
-/

namespace LayeredConfig

/-- A reading comes to a value, whatever members it does not know. -/
def Gives {α : Type} (reading : Except DecodeError (Noted α)) (value : α) : Prop :=
  ∃ unknown, reading = .ok (value, unknown)

@[simp] theorem not_gives_error {α : Type} (error : DecodeError) (value : α) :
    ¬ Gives (.error error) value := nofun

@[simp] theorem gives_ok_iff {α : Type} {value other : α} {unknown : List Json.Path} :
    Gives (.ok (value, unknown)) other ↔ other = value := by
  simp [Gives, eq_comm]

theorem map_fst_eq_ok_iff {α : Type} {reading : Except DecodeError (Noted α)} {value : α} :
    (reading.map fun noted => noted.1) = .ok value ↔ Gives reading value := by
  cases reading with
  | error error => exact iff_of_false nofun (not_gives_error error value)
  | ok noted =>
    obtain ⟨a, unknown⟩ := noted
    rw [gives_ok_iff]
    exact ⟨fun h => (Except.ok.inj h).symm, fun h => congrArg _ h.symm⟩

/-- A reading that goes on with a value and with the members not known so far,
where the latter do not matter. -/
theorem gives_bind_iff {α β : Type} {reading : Except DecodeError (Noted α)}
    {next : Noted α → Except DecodeError (Noted β)} {value : β} {P : α → Prop}
    (hnext : ∀ a unknown, Gives (next (a, unknown)) value ↔ P a) :
    Gives (reading >>= next) value ↔ ∃ a, Gives reading a ∧ P a := by
  constructor
  · rintro ⟨more, h⟩
    obtain ⟨⟨a, unknown⟩, hreading, h⟩ := bind_eq_ok_iff.1 h
    exact ⟨a, ⟨unknown, hreading⟩, (hnext a unknown).1 ⟨more, h⟩⟩
  · rintro ⟨a, ⟨unknown, hreading⟩, h⟩
    obtain ⟨more, h⟩ := (hnext a unknown).2 h
    exact ⟨more, bind_eq_ok_iff.2 ⟨_, hreading, h⟩⟩

namespace Label

/-- The members under one of the field's keys. -/
def own (field : Label) (members : Json.Members) : Json.Members :=
  members.filter fun m => field.keys.contains m.1

def others (field : Label) (members : Json.Members) : Json.Members :=
  members.filter fun m => !field.keys.contains m.1

theorem own_cons_of_contains {field : Label} {key : String}
    (h : field.keys.contains key = true) (json : Json) (members : Json.Members) :
    field.own ((key, json) :: members) = (key, json) :: field.own members :=
  List.filter_cons_of_pos h

theorem own_cons_of_not_contains {field : Label} {key : String}
    (h : field.keys.contains key = false) (json : Json) (members : Json.Members) :
    field.own ((key, json) :: members) = field.own members :=
  List.filter_cons_of_neg (by rw [h]; exact Bool.false_ne_true)

theorem others_cons_of_contains {field : Label} {key : String}
    (h : field.keys.contains key = true) (json : Json) (members : Json.Members) :
    field.others ((key, json) :: members) = field.others members :=
  List.filter_cons_of_neg (by rw [h]; exact Bool.false_ne_true)

theorem others_cons_of_not_contains {field : Label} {key : String}
    (h : field.keys.contains key = false) (json : Json) (members : Json.Members) :
    field.others ((key, json) :: members) = (key, json) :: field.others members :=
  List.filter_cons_of_pos (by rw [h]; rfl)

/-- What the members of an object make of a field: nothing, or the one value
that its only member is read as. -/
def Finds {α : Type} (field : Label) (members : Json.Members) (Reads : String → Json → α → Prop) :
    Option α → Prop
  | none => field.own members = []
  | some value => ∃ key json, field.own members = [(key, json)] ∧ Reads key json value

theorem finds_cons_of_not_contains {α : Type} {field : Label} {key : String}
    (h : field.keys.contains key = false) {json : Json} {members : Json.Members}
    {Reads : String → Json → α → Prop} {slot : Option α} :
    field.Finds ((key, json) :: members) Reads slot ↔ field.Finds members Reads slot := by
  cases slot with
  | none => rw [Finds, Finds, own_cons_of_not_contains h]
  | some value => rw [Finds, Finds, own_cons_of_not_contains h]

/-- What the slot of a field is left with. -/
def Holds {α : Type} (field : Label) (members : Json.Members) (unset : α)
    (Reads : String → Json → α → Prop) (slot : α) : Prop :=
  ∃ found, field.Finds members Reads found ∧ found.getD unset = slot

theorem holds_iff {α : Type} {field : Label} {members : Json.Members} {unset : α}
    {Reads : String → Json → α → Prop} {slot : α} :
    field.Holds members unset Reads slot ↔
      (field.own members = [] ∧ slot = unset) ∨
        ∃ key json, field.own members = [(key, json)] ∧ Reads key json slot := by
  constructor
  · rintro ⟨found, hfinds, rfl⟩
    cases found with
    | none => exact Or.inl ⟨hfinds, rfl⟩
    | some value => exact Or.inr hfinds
  · rintro (⟨hown, rfl⟩ | hfinds)
    · exact ⟨none, hown, rfl⟩
    · exact ⟨some slot, hfinds, rfl⟩

end Label

namespace Decoder

variable {fields : Fields}

/-- What reading one member after the other makes of a draft. -/
def Runs {δ : Type} (member : Json.Path → String → Json → δ → Except DecodeError (Noted δ))
    (path : Json.Path) : Json.Members → δ → δ → Prop
  | [], draft, final => final = draft
  | (key, json) :: members, draft, final =>
    ∃ next, Gives (member path key json draft) next ∧ Runs member path members next final

theorem gives_members_iff {decoder : Decoder fields} {path : Json.Path} {members : Json.Members}
    {draft final : Draft fields} :
    Gives (decoder.members path members draft) final ↔
      Runs decoder.member path members draft final := by
  induction members generalizing draft with
  | nil => exact gives_ok_iff
  | cons m members ih =>
    obtain ⟨key, json⟩ := m
    refine gives_bind_iff fun next unknown => ?_
    refine Iff.trans (gives_bind_iff (P := fun last => final = last) ?_) ?_
    · exact fun last more => gives_ok_iff
    · rw [← ih]
      simp

/-! ## One field and the others -/

section Cons

variable {α : Type} {field : Label} {read : Json.Path → Json → Except DecodeError (Noted α)}
  {rest : Decoder fields} {path : Json.Path} {key : String} {json : Json}

theorem gives_memberCons_own (hkey : field.keys.contains key = true) {slot : Option α}
    {draft : Draft fields} {next : Option α × Draft fields} :
    Gives (memberCons field read rest path key json (slot, draft)) next ↔
      slot = none ∧ ∃ value, Gives (read (path ++ [.member key]) json) value ∧
        next = (some value, draft) := by
  simp only [memberCons, hkey, if_true]
  cases slot with
  | some value => simp
  | none =>
    refine (gives_bind_iff (P := fun value => next = (some value, draft))
      fun _ _ => gives_ok_iff).trans ?_
    simp

theorem gives_memberCons_other (hkey : field.keys.contains key = false) {slot : Option α}
    {draft : Draft fields} {next : Option α × Draft fields} :
    Gives (memberCons field read rest path key json (slot, draft)) next ↔
      ∃ draft', Gives (rest.member path key json draft) draft' ∧ next = (slot, draft') := by
  simp only [memberCons, hkey, Bool.false_eq_true, if_false]
  exact gives_bind_iff fun draft' unknown => gives_ok_iff

theorem runs_memberCons_some {members : Json.Members} {value : α} {slot : Option α}
    {draft final : Draft fields} :
    Runs (memberCons field read rest) path members (some value, draft) (slot, final) ↔
      (field.own members = [] ∧ slot = some value) ∧
        Runs rest.member path (field.others members) draft final := by
  induction members generalizing draft with
  | nil => simp [Runs, Label.own, Label.others]
  | cons m members ih =>
    obtain ⟨key, json⟩ := m
    rw [Runs]
    cases hkey : field.keys.contains key with
    | true =>
      rw [Label.own_cons_of_contains hkey]
      simp [gives_memberCons_own hkey]
    | false =>
      rw [Label.own_cons_of_not_contains hkey, Label.others_cons_of_not_contains hkey, Runs]
      simp only [gives_memberCons_other hkey]
      constructor
      · rintro ⟨_, ⟨draft', hmember, rfl⟩, h⟩
        obtain ⟨hown, h⟩ := ih.1 h
        exact ⟨hown, draft', hmember, h⟩
      · rintro ⟨hown, draft', hmember, h⟩
        exact ⟨_, ⟨draft', hmember, rfl⟩, ih.2 ⟨hown, h⟩⟩

/-- A field is read from its own member, the other fields from the others. -/
theorem runs_memberCons_none {members : Json.Members} {slot : Option α}
    {draft final : Draft fields} :
    Runs (memberCons field read rest) path members (none, draft) (slot, final) ↔
      field.Finds members (fun key json value => Gives (read (path ++ [.member key]) json) value)
        slot ∧ Runs rest.member path (field.others members) draft final := by
  induction members generalizing draft with
  | nil =>
    cases slot with
    | none => simp [Runs, Label.Finds, Label.own, Label.others]
    | some value => simp [Runs, Label.Finds, Label.own]
  | cons m members ih =>
    obtain ⟨key, json⟩ := m
    rw [Runs]
    cases hkey : field.keys.contains key with
    | true =>
      rw [Label.others_cons_of_contains hkey]
      simp only [gives_memberCons_own hkey]
      constructor
      · rintro ⟨_, ⟨-, value, hread, rfl⟩, h⟩
        obtain ⟨⟨hown, rfl⟩, hrest⟩ := runs_memberCons_some.1 h
        refine ⟨⟨key, json, ?_, hread⟩, hrest⟩
        rw [Label.own_cons_of_contains hkey, hown]
      · rintro ⟨hfinds, h⟩
        cases slot with
        | none =>
          rw [Label.Finds, Label.own_cons_of_contains hkey] at hfinds
          exact nomatch hfinds
        | some value =>
          obtain ⟨key', json', hown, hread⟩ := hfinds
          rw [Label.own_cons_of_contains hkey] at hown
          obtain ⟨hm, hnone⟩ := List.cons.inj hown
          obtain ⟨rfl, rfl⟩ := Prod.mk.inj hm
          exact ⟨_, ⟨trivial, value, hread, rfl⟩, runs_memberCons_some.2 ⟨⟨hnone, rfl⟩, h⟩⟩
    | false =>
      rw [Label.finds_cons_of_not_contains hkey, Label.others_cons_of_not_contains hkey, Runs]
      simp only [gives_memberCons_other hkey]
      constructor
      · rintro ⟨_, ⟨draft', hmember, rfl⟩, h⟩
        obtain ⟨hown, h⟩ := ih.1 h
        exact ⟨hown, draft', hmember, h⟩
      · rintro ⟨hown, draft', hmember, h⟩
        exact ⟨_, ⟨draft', hmember, rfl⟩, ih.2 ⟨hown, h⟩⟩

end Cons

/-! ## Every kind of field -/

theorem gives_plain_iff {kind : Kind} {json : Json} {value : kind.Slot} (path : Json.Path) :
    Gives (plain kind path json) value ↔ kind.decode json = .ok value := by
  unfold plain
  constructor
  · rintro ⟨unknown, h⟩
    obtain ⟨slot, hslot, h⟩ := bind_eq_ok_iff.1 h
    obtain ⟨rfl, -⟩ := Prod.mk.inj (Except.ok.inj h)
    exact hslot
  · exact fun h => ⟨[], bind_eq_ok_iff.2 ⟨value, h, rfl⟩⟩

end Decoder

/-- The members of an object, at a path of the document, are read as a tree. -/
def Held (fields : Fields) (path : Json.Path) (members : Json.Members) (tree : Tree fields) :
    Prop :=
  ∃ draft, Gives ((Decoder.ofFields fields).members path members (Draft.blank fields)) draft ∧
    Draft.finish fields draft = tree

theorem held_iff {fields : Fields} {path : Json.Path} {members : Json.Members}
    {tree : Tree fields} :
    Held fields path members tree ↔
      ∃ draft, Decoder.Runs (Decoder.ofFields fields).member path members (Draft.blank fields)
        draft ∧ Draft.finish fields draft = tree :=
  exists_congr fun _ => and_congr_left fun _ => Decoder.gives_members_iff

section Held

open Decoder

variable {field message : Label} {kind : Kind} {sub rest : Fields} {path : Json.Path}
  {members : Json.Members}

@[simp] theorem held_nil {tree : Tree .nil} : Held .nil path members tree := by
  have hruns : ∀ members : Json.Members, Runs Decoder.nil.member path members () () := by
    intro members
    induction members with
    | nil => rfl
    | cons m members ih => exact ⟨(), gives_ok_iff.2 rfl, ih⟩
  exact ⟨(), gives_members_iff.2 (hruns members), rfl⟩

theorem member_ofFields_plain : (ofFields (.plain field kind rest)).member =
    memberCons field (Decoder.plain kind) (ofFields rest) := by
  rw [ofFields]

theorem member_ofFields_nested : (ofFields (.nested field message sub rest)).member =
    memberCons field ((ofFields sub).optional message.name) (ofFields rest) := by
  rw [ofFields]

theorem member_ofFields_nestedList : (ofFields (.nestedList field message sub rest)).member =
    memberCons field ((ofFields sub).list message.name) (ofFields rest) := by
  rw [ofFields]

theorem exists_runs_memberCons_iff {α : Type} (unset : α)
    (read : Json.Path → Json → Except DecodeError (Noted α)) {slot : α} {tree : Tree rest} :
    (∃ draft : Option α × Draft rest,
      Runs (memberCons field read (ofFields rest)) path members (none, Draft.blank rest) draft ∧
        (draft.1.getD unset, Draft.finish rest draft.2) = (slot, tree)) ↔
      field.Holds members unset
        (fun key json value => Gives (read (path ++ [.member key]) json) value) slot ∧
        Held rest path (field.others members) tree := by
  unfold Held Label.Holds
  simp only [gives_members_iff]
  constructor
  · rintro ⟨⟨found, draft⟩, hruns, hfinish⟩
    obtain ⟨hfinds, hrest⟩ := runs_memberCons_none.1 hruns
    obtain ⟨hslot, htree⟩ := Prod.mk.inj hfinish
    exact ⟨⟨found, hfinds, hslot⟩, draft, hrest, htree⟩
  · rintro ⟨⟨found, hfinds, rfl⟩, draft, hrest, rfl⟩
    exact ⟨(found, draft), runs_memberCons_none.2 ⟨hfinds, hrest⟩, rfl⟩

theorem held_plain_iff {slot : kind.Slot} {tree : Tree rest} :
    Held (.plain field kind rest) path members (slot, tree) ↔
      field.Holds members kind.unset (fun _ json value => kind.decode json = .ok value) slot ∧
        Held rest path (field.others members) tree := by
  have hreads : (fun (_ : String) json value => kind.decode json = .ok value) =
      fun key json value => Gives (Decoder.plain kind (path ++ [.member key]) json) value := by
    funext key json value
    exact propext (gives_plain_iff _).symm
  rw [hreads]
  refine held_iff.trans ?_
  rw [member_ofFields_plain]
  exact Iff.trans (exists_congr fun ⟨_, _⟩ => Iff.rfl) (exists_runs_memberCons_iff _ _)

theorem held_nested_iff {slot : Option (Tree sub)} {tree : Tree rest} :
    Held (.nested field message sub rest) path members (slot, tree) ↔
      field.Holds members none (fun key json value =>
        Gives ((ofFields sub).optional message.name (path ++ [.member key]) json) value) slot ∧
        Held rest path (field.others members) tree := by
  refine held_iff.trans ?_
  rw [member_ofFields_nested]
  exact Iff.trans (exists_congr fun ⟨_, _⟩ => Iff.rfl) (exists_runs_memberCons_iff _ _)

theorem held_nestedList_iff {slot : List (Tree sub)} {tree : Tree rest} :
    Held (.nestedList field message sub rest) path members (slot, tree) ↔
      field.Holds members [] (fun key json value =>
        Gives ((ofFields sub).list message.name (path ++ [.member key]) json) value) slot ∧
        Held rest path (field.others members) tree := by
  refine held_iff.trans ?_
  rw [member_ofFields_nestedList]
  exact Iff.trans (exists_congr fun ⟨_, _⟩ => Iff.rfl) (exists_runs_memberCons_iff _ _)

/-! ## Readings that go down -/

theorem gives_tree_object_iff {name : String} {tree : Tree sub} :
    Gives ((ofFields sub).tree name path (.object members)) tree ↔ Held sub path members tree := by
  refine Iff.trans (gives_bind_iff (P := fun draft => tree = Draft.finish sub draft) ?_) ?_
  · exact fun draft unknown => gives_ok_iff
  · simp only [Held, eq_comm]

theorem gives_optional_object_iff {name : String} {slot : Option (Tree sub)} :
    Gives ((ofFields sub).optional name path (.object members)) slot ↔
      ∃ tree, Held sub (path ++ [.present]) members tree ∧ slot = some tree := by
  refine Iff.trans (gives_bind_iff (P := fun tree => slot = some tree) ?_) ?_
  · exact fun tree unknown => gives_ok_iff
  · simp only [gives_tree_object_iff]

theorem gives_trees_cons_iff {name : String} {index : Nat} {json : Json} {items : List Json}
    {trees : List (Tree sub)} :
    Gives ((ofFields sub).trees name path index (json :: items)) trees ↔
      ∃ tree, Gives ((ofFields sub).tree name (path ++ [.item index]) json) tree ∧
        ∃ others, Gives ((ofFields sub).trees name path (index + 1) items) others ∧
          trees = tree :: others := by
  refine gives_bind_iff fun tree unknown => ?_
  exact gives_bind_iff fun others more => gives_ok_iff

theorem Message.gives_decode_object_iff {message : Message} {members : Json.Members}
    {tree : Tree message.fields} :
    Gives (message.decode (.object members)) tree ↔ Held message.fields [] members tree :=
  gives_tree_object_iff

end Held

end LayeredConfig
