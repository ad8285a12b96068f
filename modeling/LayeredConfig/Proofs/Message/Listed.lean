import LayeredConfig.Proofs.Message.Decode

/-!
# What an array is read as

A message is also read from an array: the items go to the fields in
declaration order, fields without an item stay unset, and no item may be left
over.  `Listed` says so field by field.  Nothing is looked up by name, so there
is no unknown item and cleaning, which goes by names, leaves arrays alone.
-/

namespace LayeredConfig

open Decoder

/-- The items of an array, from an index on, are read as a tree. -/
def Listed : (fields : Fields) → Json.Path → Nat → List Json → Tree fields → Prop
  | .nil, _, _, items, _ => items = []
  | .plain field kind rest, _, _, [], tree => tree = Tree.empty (.plain field kind rest)
  | .plain _ kind rest, path, index, json :: items, (slot, tree) =>
    kind.decode json = .ok slot ∧ Listed rest path (index + 1) items tree
  | .nested field message sub rest, _, _, [], tree =>
    tree = Tree.empty (.nested field message sub rest)
  | .nested _ message sub rest, path, index, json :: items, (slot, tree) =>
    Gives ((ofFields sub).optional message.name (path ++ [.item index]) json) slot ∧
      Listed rest path (index + 1) items tree
  | .nestedList field message sub rest, _, _, [], tree =>
    tree = Tree.empty (.nestedList field message sub rest)
  | .nestedList _ message sub rest, path, index, json :: items, (slot, tree) =>
    Gives ((ofFields sub).list message.name (path ++ [.item index]) json) slot ∧
      Listed rest path (index + 1) items tree

theorem Listed.length_le {fields : Fields} {path : Json.Path} {index : Nat} {items : List Json}
    {tree : Tree fields} (h : Listed fields path index items tree) :
    items.length ≤ fields.toList.length := by
  induction fields generalizing index items with
  | nil =>
    have hitems : items = [] := h
    simp [hitems]
  | plain field kind rest ih | nested field message sub rest _ ih
  | nestedList field message sub rest _ ih =>
    cases items with
    | nil => simp
    | cons json items => simpa [Fields.toList] using ih h.2

section Items

variable {α : Type} {fields : Fields} {unset : α} {path : Json.Path} {index : Nat}
  {read : Json.Path → Json → Except DecodeError (Noted α)} {rest : Decoder fields}

theorem gives_itemsCons_nil_iff {slot : α} {tree : Tree fields} {surplus : List Json} :
    Gives (itemsCons unset read rest path index []) ((slot, tree), surplus) ↔
      (slot, tree) = (unset, Tree.empty fields) ∧ surplus = [] := by
  rw [itemsCons, gives_ok_iff, Prod.mk.injEq]

theorem gives_itemsCons_cons_iff {json : Json} {items : List Json} {slot : α}
    {tree : Tree fields} {surplus : List Json} :
    Gives (itemsCons unset read rest path index (json :: items)) ((slot, tree), surplus) ↔
      Gives (read (path ++ [.item index]) json) slot ∧
        Gives (rest.items path (index + 1) items) (tree, surplus) := by
  have hread : Gives (itemsCons unset read rest path index (json :: items))
      ((slot, tree), surplus) ↔
      ∃ value, Gives (read (path ++ [.item index]) json) value ∧
        ∃ left, Gives (rest.items path (index + 1) items) left ∧
          ((slot, tree), surplus) = ((value, left.1), left.2) := by
    refine gives_bind_iff fun value unknown => ?_
    exact gives_bind_iff fun left more => gives_ok_iff
  rw [hread]
  constructor
  · rintro ⟨value, hvalue, ⟨tree', surplus'⟩, hleft, heq⟩
    simp only [Prod.mk.injEq] at heq
    obtain ⟨⟨rfl, rfl⟩, rfl⟩ := heq
    exact ⟨hvalue, hleft⟩
  · rintro ⟨hvalue, hleft⟩
    exact ⟨slot, hvalue, (tree, surplus), hleft, rfl⟩

end Items

section Chain

variable {field message : Label} {kind : Kind} {sub rest : Fields}

theorem items_ofFields_plain : (ofFields (.plain field kind rest)).items =
    itemsCons kind.unset (Decoder.plain kind) (ofFields rest) := by
  rw [ofFields]

theorem items_ofFields_nested : (ofFields (.nested field message sub rest)).items =
    itemsCons none ((ofFields sub).optional message.name) (ofFields rest) := by
  rw [ofFields]

theorem items_ofFields_nestedList : (ofFields (.nestedList field message sub rest)).items =
    itemsCons [] ((ofFields sub).list message.name) (ofFields rest) := by
  rw [ofFields]

end Chain

theorem gives_items_iff {fields : Fields} {path : Json.Path} {index : Nat} {items : List Json}
    {tree : Tree fields} :
    Gives ((ofFields fields).items path index items) (tree, []) ↔
      Listed fields path index items tree := by
  induction fields generalizing index items with
  | nil =>
    have hread : (ofFields .nil).items = Decoder.nil.items := by
      rw [ofFields]
    rw [hread]
    exact gives_ok_iff.trans ⟨fun h => (congrArg Prod.snd h).symm, fun h => Prod.ext rfl h.symm⟩
  | plain field kind rest ih =>
    rw [items_ofFields_plain]
    cases items with
    | nil => exact gives_itemsCons_nil_iff.trans (and_iff_left rfl)
    | cons json items =>
      exact gives_itemsCons_cons_iff.trans (and_congr (gives_plain_iff _) ih)
  | nested field message sub rest _ ih =>
    rw [items_ofFields_nested]
    cases items with
    | nil => exact gives_itemsCons_nil_iff.trans (and_iff_left rfl)
    | cons json items => exact gives_itemsCons_cons_iff.trans (and_congr_right' ih)
  | nestedList field message sub rest _ ih =>
    rw [items_ofFields_nestedList]
    cases items with
    | nil => exact gives_itemsCons_nil_iff.trans (and_iff_left rfl)
    | cons json items => exact gives_itemsCons_cons_iff.trans (and_congr_right' ih)

theorem gives_tree_array_iff {fields : Fields} {name : String} {path : Json.Path}
    {items : List Json} {tree : Tree fields} :
    Gives ((ofFields fields).tree name path (.array items)) tree ↔
      Listed fields path 0 items tree := by
  rw [← gives_items_iff]
  have hread : Gives ((ofFields fields).tree name path (.array items)) tree ↔
      ∃ left, Gives ((ofFields fields).items path 0 items) left ∧ left.2 = [] ∧ tree = left.1 := by
    refine gives_bind_iff fun left unknown => ?_
    cases left with
    | mk read surplus =>
      cases surplus with
      | nil => simp
      | cons json surplus => simp
  rw [hread]
  constructor
  · rintro ⟨⟨read, surplus⟩, hleft, rfl, rfl⟩
    exact hleft
  · intro h
    exact ⟨(tree, []), h, rfl, rfl⟩

theorem Message.gives_decode_array_iff {message : Message} {items : List Json}
    {tree : Tree message.fields} :
    Gives (message.decode (.array items)) tree ↔ Listed message.fields [] 0 items tree :=
  gives_tree_array_iff

end LayeredConfig
