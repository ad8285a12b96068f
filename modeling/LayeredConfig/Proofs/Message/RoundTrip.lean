import LayeredConfig.Proofs.Message.Decode
import LayeredConfig.Proofs.Message.Encode

/-!
# Reading back the document of a tree

A member of a document goes to the first field that has its key.  A field's
camel case key can be the name of a later field, which then never sees its own
member.  `Tree.Addressed` rules this out for the fields that a tree sets, and
the document of a tree is read back as that tree exactly then
(`Tree.held_iff_addressed`).  For a tree that is not addressed, reading fails
or comes to another tree: the members would have to be shared out among at
least as many fields, so that none of them can go astray unnoticed.
-/

namespace LayeredConfig

namespace Label

variable {field : Label} {members : Json.Members}

theorem name_mem_keys (field : Label) : field.name ∈ field.keys := by
  rw [keys]
  split
  · exact List.mem_cons_self
  · exact List.mem_cons_self

theorem own_eq_nil_iff : field.own members = [] ↔ ∀ key ∈ Assoc.keys members, key ∉ field.keys := by
  rw [own, List.filter_eq_nil_iff, Assoc.keys, List.forall_mem_map]
  simp only [List.contains_iff_mem]

theorem others_eq_self (h : field.own members = []) : field.others members = members := by
  rw [others, List.filter_eq_self]
  intro m hm
  have hnot := own_eq_nil_iff.1 h m.1 (Assoc.mem_keys_of_mem hm)
  simpa using hnot

theorem length_own_add_length_others (field : Label) (members : Json.Members) :
    (field.own members).length + (field.others members).length = members.length :=
  (List.length_eq_length_filter_add _).symm

theorem own_memberOf_append (json : Option Json) :
    field.own (Tree.memberOf field json ++ members) =
      Tree.memberOf field json ++ field.own members := by
  cases json with
  | none => rfl
  | some json => exact own_cons_of_contains (List.contains_iff_mem.2 field.name_mem_keys) _ _

theorem others_memberOf_append (json : Option Json) :
    field.others (Tree.memberOf field json ++ members) = field.others members := by
  cases json with
  | none => rfl
  | some json => exact others_cons_of_contains (List.contains_iff_mem.2 field.name_mem_keys) _ _

end Label

namespace Tree

/-- No field that the tree sets, at any depth, has its name among the keys of a
field before it. -/
def Addressed : (fields : Fields) → Tree fields → Prop
  | .nil, _ => True
  | .plain field _ rest, (_, tree) =>
    (∀ key ∈ Assoc.keys (sortedMembers rest tree), key ∉ field.keys) ∧ Addressed rest tree
  | .nested field _ sub rest, (slot, tree) =>
    (∀ key ∈ Assoc.keys (sortedMembers rest tree), key ∉ field.keys) ∧
      (∀ t ∈ slot, Addressed sub t) ∧ Addressed rest tree
  | .nestedList field _ sub rest, (slot, tree) =>
    (∀ key ∈ Assoc.keys (sortedMembers rest tree), key ∉ field.keys) ∧
      (∀ t ∈ slot, Addressed sub t) ∧ Addressed rest tree

end Tree

section Cons

variable {field : Label} {members rest : Json.Members} {doc : Option Json}

theorem Label.Holds.length_memberOf_le {α : Type} {unset slot : α}
    {Reads : String → Json → α → Prop} (h : field.Holds members unset Reads slot)
    (hunset : doc = none ↔ slot = unset) :
    (Tree.memberOf field doc).length ≤ (field.own members).length := by
  rcases Label.holds_iff.1 h with ⟨-, hslot⟩ | ⟨key, json, hown, -⟩
  · rw [hunset.2 hslot]
    exact Nat.zero_le _
  · rw [hown]
    cases doc with
    | none => exact Nat.zero_le _
    | some doc => exact Nat.le_refl _

theorem Label.own_perm (hmembers : members.Perm (Tree.memberOf field doc ++ rest)) :
    (field.own members).Perm (Tree.memberOf field doc ++ field.own rest) := by
  rw [← Label.own_memberOf_append]
  exact hmembers.filter _

theorem Label.others_perm (hmembers : members.Perm (Tree.memberOf field doc ++ rest)) :
    (field.others members).Perm (field.others rest) := by
  have hothers : (field.others members).Perm (field.others (Tree.memberOf field doc ++ rest)) :=
    hmembers.filter _
  rw [Label.others_memberOf_append] at hothers
  exact hothers

/-- A field that takes a member of another one leaves too few for the fields after it. -/
theorem Label.own_eq_nil_of_length_le (hmembers : members.Perm (Tree.memberOf field doc ++ rest))
    (h : rest.length ≤ (field.others members).length) : field.own rest = [] := by
  rw [(Label.others_perm hmembers).length_eq, ← field.length_own_add_length_others rest] at h
  exact List.eq_nil_of_length_eq_zero (by omega)

theorem Label.own_eq_memberOf (hmembers : members.Perm (Tree.memberOf field doc ++ rest))
    (hrest : field.own rest = []) : field.own members = Tree.memberOf field doc := by
  have hown := Label.own_perm hmembers
  rw [hrest, List.append_nil] at hown
  cases doc with
  | none => exact List.perm_nil.1 hown
  | some json => exact hown.eq_singleton

theorem Label.holds_iff_of_own_eq_memberOf {α : Type} {unset slot : α}
    {Reads : String → Json → α → Prop} {P : Prop}
    (hown : field.own members = Tree.memberOf field doc) (hunset : doc = none → slot = unset)
    (hinner : doc = none → P) (hreads : ∀ key json, doc = some json → (Reads key json slot ↔ P)) :
    field.Holds members unset Reads slot ↔ P := by
  rw [Label.holds_iff, hown]
  cases doc with
  | none => exact iff_of_true (Or.inl ⟨rfl, hunset rfl⟩) (hinner rfl)
  | some json =>
    rw [Tree.memberOf_some, ← hreads field.name json rfl]
    constructor
    · rintro (⟨hnil, -⟩ | ⟨key, json', hsingle, hread⟩)
      · exact nomatch hnil
      · obtain ⟨rfl, rfl⟩ := Prod.mk.inj (List.singleton_inj.1 hsingle)
        exact hread
    · exact fun hread => Or.inr ⟨field.name, json, rfl, hread⟩

/-- The step of the round trip at one field.  `Tail` says how the members left
over are read; it must not come to a tree with more members than there are. -/
theorem holds_and_tail_iff {α : Type} {unset slot : α} {Reads : String → Json → α → Prop}
    {P Q : Prop} {Tail : Json.Members → Prop}
    (hmembers : members.Perm (Tree.memberOf field doc ++ rest))
    (hunset : doc = none → slot = unset) (hinner : doc = none → P)
    (hreads : ∀ key json, doc = some json → (Reads key json slot ↔ P))
    (hlength : ∀ left, Tail left → rest.length ≤ left.length)
    (htail : ∀ left, left.Perm rest → (Tail left ↔ Q)) :
    field.Holds members unset Reads slot ∧ Tail (field.others members) ↔
      (∀ key ∈ Assoc.keys rest, key ∉ field.keys) ∧ P ∧ Q := by
  have hboth : field.own rest = [] → ((field.Holds members unset Reads slot ∧
      Tail (field.others members)) ↔ P ∧ Q) := by
    intro hrest
    have hothers := Label.others_perm hmembers
    rw [Label.others_eq_self hrest] at hothers
    have hown := Label.own_eq_memberOf hmembers hrest
    exact and_congr (Label.holds_iff_of_own_eq_memberOf hown hunset hinner hreads)
      (htail _ hothers)
  rw [← Label.own_eq_nil_iff]
  constructor
  · intro h
    have hrest := Label.own_eq_nil_of_length_le hmembers (hlength _ h.2)
    exact ⟨hrest, (hboth hrest).1 h⟩
  · rintro ⟨hrest, h⟩
    exact (hboth hrest).2 h

end Cons

namespace Tree

variable {fields sub : Fields}

theorem nestedDoc_eq_none_iff {slot : Option (Tree sub)} : nestedDoc slot = none ↔ slot = none :=
  Option.map_eq_none_iff

theorem nestedListDoc_eq_none_iff {slot : List (Tree sub)} :
    nestedListDoc slot = none ↔ slot = [] := by
  simp [nestedListDoc]

theorem sort_toJson?_eq_none_iff {kind : Kind} {slot : kind.Slot} :
    (kind.toJson? slot).map Json.sort = none ↔ slot = kind.unset :=
  Option.map_eq_none_iff.trans Kind.toJson?_eq_none_iff

theorem length_le_of_held {path : Json.Path} {members : Json.Members} {tree : Tree fields}
    (h : Held fields path members tree) :
    (sortedMembers fields tree).length ≤ members.length := by
  induction fields generalizing members with
  | nil => exact Nat.zero_le _
  | plain field kind rest ih =>
    obtain ⟨slot, tree⟩ := tree
    obtain ⟨hslot, hrest⟩ := held_plain_iff.1 h
    rw [sortedMembers_plain, List.length_append, ← field.length_own_add_length_others members]
    exact Nat.add_le_add (hslot.length_memberOf_le sort_toJson?_eq_none_iff) (ih hrest)
  | nested field message sub rest _ ih =>
    obtain ⟨slot, tree⟩ := tree
    obtain ⟨hslot, hrest⟩ := held_nested_iff.1 h
    rw [sortedMembers_nested, List.length_append, ← field.length_own_add_length_others members]
    exact Nat.add_le_add (hslot.length_memberOf_le nestedDoc_eq_none_iff) (ih hrest)
  | nestedList field message sub rest _ ih =>
    obtain ⟨slot, tree⟩ := tree
    obtain ⟨hslot, hrest⟩ := held_nestedList_iff.1 h
    rw [sortedMembers_nestedList, List.length_append, ← field.length_own_add_length_others members]
    exact Nat.add_le_add (hslot.length_memberOf_le nestedListDoc_eq_none_iff) (ih hrest)

theorem gives_trees_sortedMembers_iff {name : String} {path : Json.Path} {index : Nat}
    {Good : Tree sub → Prop} {trees : List (Tree sub)}
    (h : ∀ (path : Json.Path) (tree : Tree sub),
      Held sub path (Assoc.ofList (sortedMembers sub tree)) tree ↔ Good tree) :
    Gives ((Decoder.ofFields sub).trees name path index
      (trees.map fun tree => .object (Assoc.ofList (sortedMembers sub tree)))) trees ↔
      ∀ tree ∈ trees, Good tree := by
  induction trees generalizing index with
  | nil => exact ⟨fun _ _ => nofun, fun _ => gives_ok_iff.2 rfl⟩
  | cons tree trees ih =>
    rw [List.map_cons, gives_trees_cons_iff, List.forall_mem_cons]
    constructor
    · rintro ⟨t, ht, ts, hts, heq⟩
      obtain ⟨rfl, rfl⟩ := List.cons.inj heq
      exact ⟨(h _ _).1 (gives_tree_object_iff.1 ht), ih.1 hts⟩
    · rintro ⟨ht, hts⟩
      exact ⟨tree, gives_tree_object_iff.2 ((h _ _).2 ht), trees, ih.2 hts, rfl⟩

/-- The document of a tree, in any order, is read back as that tree if and only
if the tree is addressed. -/
theorem held_iff_addressed (hdistinct : fields.Distinct) (path : Json.Path)
    {members : Json.Members} (tree : Tree fields)
    (hmembers : members.Perm (sortedMembers fields tree)) :
    Held fields path members tree ↔ Addressed fields tree := by
  induction fields generalizing path members with
  | nil => exact iff_of_true held_nil trivial
  | plain field kind rest ih =>
    obtain ⟨slot, tree⟩ := tree
    rw [sortedMembers_plain] at hmembers
    refine held_plain_iff.trans ((holds_and_tail_iff (P := True) hmembers
      sort_toJson?_eq_none_iff.1 (fun _ => trivial) (fun key json hdoc => ?_)
      (fun left => length_le_of_held) (fun left => ih hdistinct.2 path tree)).trans ?_)
    · obtain ⟨doc, hslot, rfl⟩ := Option.map_eq_some_iff.1 hdoc
      exact iff_of_true (Kind.decode_sort_of_toJson? hslot) trivial
    · rw [true_and]
      rfl
  | nested field message sub rest ihsub ih =>
    obtain ⟨slot, tree⟩ := tree
    obtain ⟨-, hsub, hrest⟩ := hdistinct
    rw [sortedMembers_nested] at hmembers
    refine held_nested_iff.trans (holds_and_tail_iff hmembers nestedDoc_eq_none_iff.1
      (fun hdoc => ?_) (fun key json hdoc => ?_) (fun left => length_le_of_held)
      (fun left => ih hrest path tree))
    · rw [nestedDoc_eq_none_iff.1 hdoc]
      exact nofun
    · obtain ⟨t, rfl, rfl⟩ := Option.map_eq_some_iff.1 hdoc
      have hread := ihsub hsub (path ++ [.member key] ++ [.present]) t
        (ofList_sortedMembers_perm hsub t)
      rw [gives_optional_object_iff]
      simp [-List.append_assoc, hread]
  | nestedList field message sub rest ihsub ih =>
    obtain ⟨slot, tree⟩ := tree
    obtain ⟨-, hsub, hrest⟩ := hdistinct
    rw [sortedMembers_nestedList] at hmembers
    refine held_nestedList_iff.trans (holds_and_tail_iff hmembers nestedListDoc_eq_none_iff.1
      (fun hdoc => ?_) (fun key json hdoc => ?_) (fun left => length_le_of_held)
      (fun left => ih hrest path tree))
    · rw [nestedListDoc_eq_none_iff.1 hdoc]
      exact nofun
    · rw [nestedListDoc] at hdoc
      split at hdoc
      · exact nomatch hdoc
      · obtain rfl := Option.some.inj hdoc
        exact gives_trees_sortedMembers_iff fun path t =>
          ihsub hsub path t (ofList_sortedMembers_perm hsub t)

end Tree

end LayeredConfig
