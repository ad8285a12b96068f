import LayeredConfig.Proofs.Message.Clean
import LayeredConfig.Proofs.Message.Encode

/-!
# Gathering a tree from a document

`Tree.gather` takes from an object what a message can use of it and passes over
the rest: each field looks under its own keys, and takes the first value there
that is of its kind.  Lists, maps and lists of messages keep the parts that
fit.  Nothing fails and nothing has to be cleaned first: where the keys of the
fields are disjoint, cleaning does not change what is gathered
(`Tree.gather_clean`).
-/

namespace LayeredConfig

namespace Json

def members? : Json → Option Members
  | object members => some members
  | _ => none

def items? : Json → Option (List Json)
  | array items => some items
  | _ => none

end Json

namespace Label

/-- What a field finds: the first value under its keys that it can read. -/
def look {α : Type} (field : Label) (read? : Json → Option α) (members : Json.Members) :
    Option α :=
  field.keys.findSome? fun key => (Assoc.find? key members).bind read?

end Label

namespace Kind

/-- The entry of a map that a member stands for, if it fits. -/
def gatherMember? (key value : Scalar) (member : String × Json) :
    Option (key.Val × value.Val) :=
  (key.ofText? member.1).bind fun k => (value.ofJson? member.2).map fun v => (k, v)

/-- What a field takes from a value: a single value that has its type, the
items of an array or the members of an object that fit. -/
def gather? : (kind : Kind) → Json → Option kind.Slot
  | leaf type, json => (type.ofJson? json).map some
  | list type, json => json.items?.map fun items => items.filterMap type.ofJson?
  | map key value, json =>
    json.members?.map fun members => SortedMap.ofList (members.filterMap (gatherMember? key value))

end Kind

namespace Tree

/-- The tree that the members of an object make up. -/
def gather : (fields : Fields) → Json.Members → Tree fields
  | .nil, _ => ()
  | .plain field kind rest, members =>
    ((field.look kind.gather? members).getD kind.unset, gather rest members)
  | .nested field _ sub rest, members =>
    (field.look (fun json => json.members?.map (gather sub)) members, gather rest members)
  | .nestedList field _ sub rest, members =>
    ((field.look (fun json => json.items?.map fun items =>
      items.filterMap fun item => item.members?.map (gather sub)) members).getD [],
      gather rest members)

end Tree

namespace Fields

def keys (fields : Fields) : List String := fields.toList.flatMap fun field => field.label.keys

/-- No two fields of a message have a key in common, at any depth. -/
def Unambiguous : Fields → Prop
  | nil => True
  | plain field _ rest => (∀ key ∈ field.keys, key ∉ rest.keys) ∧ rest.Unambiguous
  | nested field _ sub rest | nestedList field _ sub rest =>
    (∀ key ∈ field.keys, key ∉ rest.keys) ∧ sub.Unambiguous ∧ rest.Unambiguous

instance instDecidableUnambiguous : (fields : Fields) → Decidable fields.Unambiguous
  | nil => isTrue trivial
  | plain field _ rest =>
    have := instDecidableUnambiguous rest
    inferInstanceAs (Decidable ((∀ key ∈ field.keys, key ∉ rest.keys) ∧ rest.Unambiguous))
  | nested field _ sub rest | nestedList field _ sub rest =>
    have := instDecidableUnambiguous sub
    have := instDecidableUnambiguous rest
    inferInstanceAs (Decidable
      ((∀ key ∈ field.keys, key ∉ rest.keys) ∧ sub.Unambiguous ∧ rest.Unambiguous))

theorem keys_plain (field : Label) (kind : Kind) (rest : Fields) :
    (plain field kind rest).keys = field.keys ++ rest.keys := List.flatMap_cons

theorem keys_nested (field message : Label) (sub rest : Fields) :
    (nested field message sub rest).keys = field.keys ++ rest.keys := List.flatMap_cons

theorem keys_nestedList (field message : Label) (sub rest : Fields) :
    (nestedList field message sub rest).keys = field.keys ++ rest.keys := List.flatMap_cons

end Fields

/-! ## What gathering depends on -/

theorem findSome?_congr {α β : Type} {f g : α → Option β} {l : List α}
    (h : ∀ a ∈ l, f a = g a) : l.findSome? f = l.findSome? g := by
  induction l with
  | nil => rfl
  | cons a l ih =>
    obtain ⟨ha, hl⟩ := List.forall_mem_cons.1 h
    rw [List.findSome?_cons, List.findSome?_cons, ha, ih hl]

theorem Label.look_congr {α : Type} {field : Label} {read? : Json → Option α}
    {members others : Json.Members}
    (h : ∀ key ∈ field.keys, Assoc.find? key members = Assoc.find? key others) :
    field.look read? members = field.look read? others :=
  findSome?_congr fun key hkey => congrArg (·.bind read?) (h key hkey)

/-- Gathering sees only the keys of the fields. -/
theorem Tree.gather_congr {fields : Fields} {members others : Json.Members}
    (h : ∀ key ∈ fields.keys, Assoc.find? key members = Assoc.find? key others) :
    gather fields members = gather fields others := by
  induction fields with
  | nil => rfl
  | plain field kind rest ih =>
    rw [Fields.keys_plain, List.forall_mem_append] at h
    rw [gather, gather, Label.look_congr h.1, ih h.2]
  | nested field message sub rest _ ih =>
    rw [Fields.keys_nested, List.forall_mem_append] at h
    rw [gather, gather, Label.look_congr h.1, ih h.2]
  | nestedList field message sub rest _ ih =>
    rw [Fields.keys_nestedList, List.forall_mem_append] at h
    rw [gather, gather, Label.look_congr h.1, ih h.2]

theorem Fields.find?_clean_of_not_mem {fields : Fields} {path : Json.Path}
    {members : Json.Members} {key : String} (h : key ∉ fields.keys) :
    Assoc.find? key (fields.clean path members).1 = Assoc.find? key members := by
  induction fields generalizing members with
  | nil => rfl
  | plain field kind rest ih =>
    rw [keys_plain, List.mem_append, not_or] at h
    rw [clean_plain_fst, ih h.2, find?_cleanKeys_of_not_mem h.1]
  | nested field message sub rest _ ih =>
    rw [keys_nested, List.mem_append, not_or] at h
    rw [clean_nested_fst, ih h.2, find?_cleanKeys_of_not_mem h.1]
  | nestedList field message sub rest _ ih =>
    rw [keys_nestedList, List.mem_append, not_or] at h
    rw [clean_nestedList_fst, ih h.2, find?_cleanKeys_of_not_mem h.1]

/-! ## Gathering after cleaning -/

theorem Label.look_cleanKeys {α : Type} {clean : Json.Path → Json → Cleaned Json}
    {Good : Json → Prop} (hclean : Cleans clean Good) {read? : Json → Option α}
    (hread : ∀ path json, json.Ordered → (clean path json).1.bind read? = read? json)
    (expected : String) (path : Json.Path) (field : Label) {members : Json.Members}
    (h : (Json.object members).Ordered) :
    field.look read? (Fields.cleanKeys clean expected path field.keys members).1 =
      field.look read? members := by
  refine findSome?_congr fun key hkey => ?_
  rw [Fields.find?_cleanKeys_of_mem hclean field.nodup_keys hkey h]
  cases hfind : Assoc.find? key members with
  | none => rfl
  | some json =>
    exact hread _ json ((Json.ordered_object_iff.1 h).2 _ (Assoc.mem_of_find?_eq_some hfind))

theorem filterMap_filter_of_eq_none {α β : Type} {p : α → Bool} {f : α → Option β}
    (h : ∀ a, p a = false → f a = none) (l : List α) :
    (l.filter p).filterMap f = l.filterMap f := by
  induction l with
  | nil => rfl
  | cons a l ih =>
    cases hp : p a with
    | true => rw [List.filter_cons_of_pos hp, List.filterMap_cons, List.filterMap_cons, ih]
    | false =>
      rw [List.filter_cons_of_neg (by rw [hp]; exact Bool.false_ne_true),
        List.filterMap_cons_none (h a hp), ih]

theorem Kind.gatherMember?_eq_none {key value : Scalar} {e : String × Json}
    (h : entryFits key value e = false) : gatherMember? key value e = none := by
  rw [entryFits, Bool.and_eq_false_iff] at h
  rw [gatherMember?]
  rcases h with h | h
  · rw [Scalar.keyFits, Option.isSome_eq_false_iff, Option.isNone_iff_eq_none] at h
    rw [h]
    rfl
  · have hvalue : value.ofJson? e.2 = none := ValueType.fits_eq_false_iff.1 h
    rw [hvalue]
    cases key.ofText? e.1 with
    | none => rfl
    | some k => rfl

/-- A field gathers the same from a value and from what cleaning keeps of it. -/
theorem Kind.gather?_clean (kind : Kind) (path : Json.Path) (json : Json) :
    (kind.clean path json).1.bind kind.gather? = kind.gather? json := by
  cases kind with
  | leaf type =>
    rw [clean]
    split
    · rfl
    · rename_i hfits
      have hnone := ValueType.fits_eq_false_iff.1 (Bool.eq_false_iff.2 hfits)
      rw [gather?, hnone]
      rfl
  | list type =>
    cases json with
    | array items =>
      have hitems : (items.filter type.fits).filterMap type.ofJson? =
          items.filterMap type.ofJson? :=
        filterMap_filter_of_eq_none (fun _ => ValueType.fits_eq_false_iff.1) items
      rw [clean_list_fst, Option.bind_some, gather?]
      exact congrArg some hitems
    | null | bool | number | string | object => rfl
  | map key value =>
    cases json with
    | object entries =>
      have hentries : (entries.filter (entryFits key value)).filterMap (gatherMember? key value) =
          entries.filterMap (gatherMember? key value) :=
        filterMap_filter_of_eq_none (fun _ => gatherMember?_eq_none) entries
      rw [clean_map_fst, Option.bind_some, gather?]
      exact congrArg (fun entries => some (SortedMap.ofList entries)) hentries
    | null | bool | number | string | array => rfl

namespace Fields

variable {α : Type} {clean : Json.Path → Json.Members → Json.Members × List Mistyped}
  {read : Json.Members → α}

theorem members?_cleanNested
    (hread : ∀ path members, (Json.object members).Ordered →
      read (clean path members).1 = read members) (path : Json.Path) (json : Json)
    (h : json.Ordered) :
    ((cleanNested clean path json).1.bind fun json => json.members?.map read) =
      json.members?.map read := by
  cases json with
  | object members => exact congrArg some (hread path members h)
  | null | bool | number | string | array => rfl

theorem filterMap_cleanTrees
    (hread : ∀ path members, (Json.object members).Ordered →
      read (clean path members).1 = read members) (name : String) (path : Json.Path) (index : Nat)
    {items : List Json} (h : ∀ item ∈ items, item.Ordered) :
    ((cleanTrees clean name path index items).1.filterMap fun item => item.members?.map read) =
      items.filterMap fun item => item.members?.map read := by
  induction items generalizing index with
  | nil => rfl
  | cons item items ih =>
    obtain ⟨hitem, hitems⟩ := List.forall_mem_cons.1 h
    have hone := members?_cleanNested hread (path ++ [.item index]) item hitem
    rw [cleanTrees_cons_fst, List.filterMap_append, ih (index + 1) hitems, List.filterMap_cons,
      ← hone]
    cases (cleanNested clean (path ++ [.item index]) item).1 with
    | none => rfl
    | some kept =>
      rw [Option.toList_some, List.filterMap_cons, Option.bind_some]
      cases kept.members?.map read with
      | none => rfl
      | some tree => rfl

theorem items?_cleanNestedList
    (hread : ∀ path members, (Json.object members).Ordered →
      read (clean path members).1 = read members) (name : String) (path : Json.Path) (json : Json)
    (h : json.Ordered) :
    ((cleanNestedList clean name path json).1.bind fun json =>
        json.items?.map fun items => items.filterMap fun item => item.members?.map read) =
      json.items?.map fun items => items.filterMap fun item => item.members?.map read := by
  cases json with
  | array items =>
    exact congrArg some (filterMap_cleanTrees hread name path 0 (Json.ordered_array_iff.1 h))
  | null | bool | number | string | object => rfl

end Fields

section Then

variable {clean : Json.Path → Json → Cleaned Json} {Good : Json → Prop} {expected : String}
  {path : Json.Path} {field : Label} {rest : Fields} {members : Json.Members}

/-- A field finds the same after its own keys and those of the fields after it
were cleaned. -/
theorem Label.look_clean_then {α : Type} {read? : Json → Option α} (hclean : Cleans clean Good)
    (hread : ∀ path json, json.Ordered → (clean path json).1.bind read? = read? json)
    (hkeys : ∀ key ∈ field.keys, key ∉ rest.keys) (h : (Json.object members).Ordered) :
    field.look read?
        (rest.clean path (Fields.cleanKeys clean expected path field.keys members).1).1 =
      field.look read? members := by
  refine (look_congr fun key hkey => ?_).trans (look_cleanKeys hclean hread expected path field h)
  exact Fields.find?_clean_of_not_mem (hkeys key hkey)

theorem Tree.gather_clean_then (hclean : Cleans clean Good)
    (hkeys : ∀ key ∈ field.keys, key ∉ rest.keys) (h : (Json.object members).Ordered)
    (hrest : ∀ {members}, (Json.object members).Ordered →
      gather rest (rest.clean path members).1 = gather rest members) :
    gather rest (rest.clean path (Fields.cleanKeys clean expected path field.keys members).1).1 =
      gather rest members := by
  refine (hrest (Fields.ordered_cleanKeys hclean h)).trans (gather_congr fun key hkey => ?_)
  exact Fields.find?_cleanKeys_of_not_mem fun hmem => hkeys key hmem hkey

end Then

/-- Where keys are unambiguous, cleaning does not change what is gathered. -/
theorem Tree.gather_clean {fields : Fields} (hkeys : fields.Unambiguous) (path : Json.Path)
    {members : Json.Members} (h : (Json.object members).Ordered) :
    gather fields (fields.clean path members).1 = gather fields members := by
  induction fields generalizing path members with
  | nil => rfl
  | plain field kind rest ih =>
    obtain ⟨hfield, hrest⟩ := hkeys
    rw [Fields.clean_plain_fst, gather, gather, gather_clean_then kind.cleans hfield h
      (ih hrest path), Label.look_clean_then kind.cleans (fun path json _ =>
        kind.gather?_clean path json) hfield h]
  | nested field message sub rest ihsub ih =>
    obtain ⟨hfield, hsub, hrest⟩ := hkeys
    have hclean := Fields.cleans_cleanNested sub.cleansMembers
    rw [Fields.clean_nested_fst, gather, gather, gather_clean_then hclean hfield h (ih hrest path),
      Label.look_clean_then hclean (Fields.members?_cleanNested fun path _ => ihsub hsub path)
        hfield h]
  | nestedList field message sub rest ihsub ih =>
    obtain ⟨hfield, hsub, hrest⟩ := hkeys
    have hclean := Fields.cleans_cleanNestedList message.name sub.cleansMembers
    rw [Fields.clean_nestedList_fst, gather, gather,
      gather_clean_then hclean hfield h (ih hrest path),
      Label.look_clean_then hclean (Fields.items?_cleanNestedList (fun path _ => ihsub hsub path)
        message.name) hfield h]

end LayeredConfig
