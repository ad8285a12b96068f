import LayeredConfig.Agent.Config
import LayeredConfig.Proofs.Json.Path
import LayeredConfig.Proofs.Message.Chain
import LayeredConfig.Proofs.Message.Listed
import LayeredConfig.Specimen

/-!
# Members that belong to no field

`Content.unknown` and `Fields.unknownIn` list the members of a document that belong to
no field, by the message alone and in document order.  A document that is read is read
with this list (`Message.decode_notes_unknown`).
-/

namespace LayeredConfig

open Json (Path)

/-- The unknown members in a member of an object, and in the items of an array, which
start at an index. -/
structure Unknowns where
  member : String × Json → List Path
  items : Nat → List Json → List Path

namespace Unknowns

/-- The unknown members in a message. -/
def tree (unknowns : Unknowns) : Json → List Path
  | .object members => members.flatMap unknowns.member
  | .array items => unknowns.items 0 items
  | _ => []

def list (unknowns : Unknowns) : Json → List Path
  | .array items => items.zipIdx.flatMap fun e => (unknowns.tree e.1).map (.item e.2 :: ·)
  | _ => []

def nil : Unknowns where
  member m := [[.member m.1]]
  items _ _ := []

/-- What is unknown in the values of a field, and in the other members. -/
def cons (field : Label) (inside : Json → List Path) (rest : Unknowns) : Unknowns where
  member m := if m.1 ∈ field.keys then (inside m.2).map (.member m.1 :: ·) else rest.member m
  items
    | _, [] => []
    | index, json :: items => (inside json).map (.item index :: ·) ++ rest.items (index + 1) items

end Unknowns

def Fields.unknowns : Fields → Unknowns
  | nil => .nil
  | plain field _ rest => .cons field (fun _ => []) rest.unknowns
  | nested field _ sub rest => .cons field sub.unknowns.tree rest.unknowns
  | nestedList field _ sub rest => .cons field sub.unknowns.list rest.unknowns

/-! ## What reading notes -/

/-- A reading that, if it comes to a value, has noted paths to the given places. -/
def Notes {α : Type} (reading : Except DecodeError (Noted α)) (places : List Path) : Prop :=
  ∀ value noted, reading = .ok (value, noted) → noted.map Path.places = places

namespace Notes

variable {α β : Type} {places : List Path}

theorem ok {value : α} {noted : List Path} (h : noted.map Path.places = places) :
    Notes (.ok (value, noted)) places := by
  rintro _ _ ⟨⟩
  exact h

theorem error (error : DecodeError) : Notes (.error error : Except DecodeError (Noted α)) places :=
  nofun

theorem bind {reading : Except DecodeError (Noted α)} {first : List Path}
    {next : Noted α → Except DecodeError (Noted β)} (h : Notes reading first)
    (hnext : ∀ a noted, noted.map Path.places = first → Notes (next (a, noted)) places) :
    Notes (reading >>= next) places := by
  intro value noted hread
  obtain ⟨⟨a, firstNoted⟩, ha, hread⟩ := bind_eq_ok_iff.1 hread
  exact hnext a firstNoted (h a firstNoted ha) value noted hread

end Notes

def Json.Path.under (path : Path) (inner : List Path) : List Path := inner.map (path.places ++ ·)

@[simp] theorem Json.Path.under_present (path : Path) (inner : List Path) :
    under (path ++ [.present]) inner = path.under inner := by
  simp [under]

/-- How a value is read, whose unknown members are `inside`. -/
def NotesInside {α : Type} (read : Path → Json → Except DecodeError (Noted α))
    (inside : Json → List Path) : Prop :=
  ∀ path json, Notes (read path json) (path.under (inside json))

namespace Decoder

variable {fields : Fields}

/-- The decoder notes the unknown members of objects and of arrays. -/
structure Tracks (decoder : Decoder fields) (unknowns : Unknowns) : Prop where
  member : ∀ path key json draft,
    Notes (decoder.member path key json draft) (path.under (unknowns.member (key, json)))
  items : ∀ path index items,
    Notes (decoder.items path index items) (path.under (unknowns.items index items))

variable {decoder : Decoder fields} {unknowns : Unknowns} (h : decoder.Tracks unknowns)

include h

theorem notes_members (path : Path) (members : Json.Members) (draft : Draft fields) :
    Notes (decoder.members path members draft)
      (path.under (members.flatMap unknowns.member)) := by
  induction members generalizing draft with
  | nil => exact Notes.ok rfl
  | cons m members ih =>
    refine (h.member path m.1 m.2 draft).bind fun draft noted hnoted => ?_
    refine (ih draft).bind fun draft more hmore => Notes.ok ?_
    simp [hnoted, hmore, Path.under]

theorem notesInside_tree (name : String) : NotesInside (decoder.tree name) unknowns.tree := by
  intro path json
  cases json with
  | object members =>
    exact (notes_members h path members _).bind fun draft noted hnoted => Notes.ok hnoted
  | array items =>
    refine (h.items path 0 items).bind fun read noted hnoted => ?_
    obtain ⟨tree, surplus⟩ := read
    dsimp only
    split
    · exact Notes.ok hnoted
    · exact Notes.error _
  | null | bool | number | string => exact Notes.error _

theorem notesInside_optional (name : String) :
    NotesInside (decoder.optional name) unknowns.tree := by
  intro path json
  have htree := notesInside_tree h name (path ++ [.present]) json
  rw [Path.under_present] at htree
  cases json with
  | null => exact Notes.ok rfl
  | bool | number | string | array | object =>
    exact htree.bind fun tree noted hnoted => Notes.ok hnoted

theorem notes_trees (name : String) (path : Path) (index : Nat) (items : List Json) :
    Notes (decoder.trees name path index items)
      (path.under ((items.zipIdx index).flatMap fun e =>
        (unknowns.tree e.1).map (.item e.2 :: ·))) := by
  induction items generalizing index with
  | nil => exact Notes.ok rfl
  | cons item items ih =>
    refine (notesInside_tree h name (path ++ [.item index]) item).bind fun tree noted hnoted => ?_
    refine (ih (index + 1)).bind fun trees more hmore => Notes.ok ?_
    simp [hnoted, hmore, Path.under]

theorem notesInside_list (name : String) : NotesInside (decoder.list name) unknowns.list := by
  intro path json
  cases json with
  | array items => exact notes_trees h name path 0 items
  | null | bool | number | string | object => exact Notes.error _

omit h

theorem notesInside_plain (kind : Kind) : NotesInside (plain kind) fun _ => [] := by
  rintro path json slot noted hread
  obtain ⟨slot, -, hread⟩ := bind_eq_ok_iff.1 hread
  cases hread
  rfl

theorem tracks_nil : nil.Tracks .nil where
  member path key json draft := Notes.ok (by simp [Path.under, Unknowns.nil])
  items path index items := Notes.ok rfl

section Cons

variable {α : Type} {field : Label} {read : Path → Json → Except DecodeError (Noted α)}
  {inside : Json → List Path} {rest : Decoder fields} (hread : NotesInside read inside)
  (hrest : rest.Tracks unknowns)

include hread hrest

theorem notes_memberCons (path : Path) (key : String) (json : Json)
    (draft : Option α × Draft fields) :
    Notes (memberCons field read rest path key json draft)
      (path.under ((Unknowns.cons field inside unknowns).member (key, json))) := by
  obtain ⟨slot, draft⟩ := draft
  by_cases hkey : key ∈ field.keys
  · simp only [memberCons, List.contains_iff_mem.2 hkey, if_true, Unknowns.cons, if_pos hkey]
    cases slot with
    | some value => exact Notes.error _
    | none =>
      refine Notes.bind (hread (path ++ [.member key]) json) fun value noted hnoted => ?_
      exact Notes.ok (by simp [hnoted, Path.under])
  · simp only [memberCons, mt List.contains_iff_mem.1 hkey, Unknowns.cons, if_neg hkey]
    exact (hrest.member path key json draft).bind fun draft noted hnoted => Notes.ok hnoted

theorem notes_itemsCons (unset : α) (path : Path) (index : Nat) (items : List Json) :
    Notes (itemsCons unset read rest path index items)
      (path.under ((Unknowns.cons field inside unknowns).items index items)) := by
  cases items with
  | nil => exact Notes.ok rfl
  | cons json items =>
    refine (hread (path ++ [.item index]) json).bind fun value noted hnoted => ?_
    refine (hrest.items path (index + 1) items).bind fun others more hmore => ?_
    obtain ⟨tree, surplus⟩ := others
    exact Notes.ok (by simp [hnoted, hmore, Path.under, Unknowns.cons])

end Cons

theorem tracks_ofFields (fields : Fields) : (ofFields fields).Tracks fields.unknowns := by
  induction fields with
  | nil => exact tracks_nil
  | plain field kind rest ih =>
    have hread := notesInside_plain kind
    refine ⟨?_, ?_⟩
    · rw [member_ofFields_plain]
      exact notes_memberCons hread ih
    · rw [items_ofFields_plain]
      exact notes_itemsCons hread ih _
  | nested field message sub rest ihsub ih =>
    have hread := notesInside_optional ihsub message.name
    refine ⟨?_, ?_⟩
    · rw [member_ofFields_nested]
      exact notes_memberCons hread ih
    · rw [items_ofFields_nested]
      exact notes_itemsCons hread ih _
  | nestedList field message sub rest ihsub ih =>
    have hread := notesInside_list ihsub message.name
    refine ⟨?_, ?_⟩
    · rw [member_ofFields_nestedList]
      exact notes_memberCons hread ih
    · rw [items_ofFields_nestedList]
      exact notes_itemsCons hread ih _

end Decoder

/-! ## The unknown members field by field -/

def Content.unknown : Content → Json → List Path
  | plain _ => fun _ => []
  | nested message => message.fields.unknowns.tree
  | nestedList message => message.fields.unknowns.list

namespace Fields

theorem unknowns_cons (field : Field) (rest : Fields) :
    (cons field rest).unknowns = .cons field.label field.content.unknown rest.unknowns := by
  obtain ⟨label, content⟩ := field
  cases content <;> rfl

/-- What is unknown in a member: the member itself, if it belongs to no field. -/
def unknownIn (fields : Fields) (m : String × Json) : List Path :=
  match fields.byKey? m.1 with
  | some field => field.content.unknown m.2
  | none => [[]]

theorem unknowns_member (fields : Fields) (m : String × Json) :
    fields.unknowns.member m = (fields.unknownIn m).map (.member m.1 :: ·) := by
  induction fields using cons_induction with
  | nil => rfl
  | cons field rest _ ih =>
    rw [unknowns_cons, unknownIn, byKey?_cons, Unknowns.cons]
    by_cases hkey : m.1 ∈ field.label.keys
    · simp [hkey]
    · simpa [hkey, unknownIn] using ih

theorem unknowns_items (fields : Fields) (index : Nat) (items : List Json) :
    fields.unknowns.items index items =
      ((fields.toList.zip items).zipIdx index).flatMap fun e =>
        (e.1.1.content.unknown e.1.2).map (.item e.2 :: ·) := by
  induction fields using cons_induction generalizing index items with
  | nil => rfl
  | cons field rest _ ih =>
    rw [unknowns_cons, toList_cons]
    cases items with
    | nil => rfl
    | cons json items => simp [Unknowns.cons, ih]

theorem unknowns_tree_object (fields : Fields) (members : Json.Members) :
    fields.unknowns.tree (.object members) =
      members.flatMap fun m => (fields.unknownIn m).map (.member m.1 :: ·) :=
  List.flatMap_congr fun m _ => fields.unknowns_member m

theorem unknowns_tree_array (fields : Fields) (items : List Json) :
    fields.unknowns.tree (.array items) =
      (fields.toList.zip items).zipIdx.flatMap fun e =>
        (e.1.1.content.unknown e.1.2).map (.item e.2 :: ·) := fields.unknowns_items 0 items

end Fields

/-! ## Each unknown member is noted once -/

mutual

/-- In a value of a field, the member at a path belongs to no field. -/
inductive Content.Unknown : Content → Json → Path → Prop
  | nested {message : Message} {json : Json} {path : Path}
    (h : Fields.Unknown message.fields json path) : Content.Unknown (.nested message) json path
  | item {message : Message} {items : List Json} {i : Nat} {json : Json} {path : Path}
    (hitem : items[i]? = some json) (h : Fields.Unknown message.fields json path) :
    Content.Unknown (.nestedList message) (.array items) (.item i :: path)

/-- In a message with the given fields, the member at a path belongs to no field.  Where a
message is written as an array, its items belong to the fields in declaration order. -/
inductive Fields.Unknown : Fields → Json → Path → Prop
  | here {fields : Fields} {members : Json.Members} {key : String} {json : Json}
    (hmem : (key, json) ∈ members) (hkey : key ∉ fields.keys) :
    Fields.Unknown fields (.object members) [.member key]
  | member {fields : Fields} {members : Json.Members} {field : Field} {key : String} {json : Json}
    {path : Path} (hmem : (key, json) ∈ members) (hfield : fields.byKey? key = some field)
    (h : Content.Unknown field.content json path) :
    Fields.Unknown fields (.object members) (.member key :: path)
  | item {fields : Fields} {items : List Json} {field : Field} {i : Nat} {json : Json}
    {path : Path} (hfield : fields.toList[i]? = some field) (hitem : items[i]? = some json)
    (h : Content.Unknown field.content json path) :
    Fields.Unknown fields (.array items) (.item i :: path)

end

theorem Fields.mem_unknowns_tree_of {fields : Fields}
    (h : ∀ field ∈ fields.toList, ∀ json path,
      path ∈ field.content.unknown json ↔ field.content.Unknown json path)
    {json : Json} {path : Path} :
    path ∈ fields.unknowns.tree json ↔ fields.Unknown json path := by
  cases json with
  | object members =>
    rw [unknowns_tree_object, Path.mem_flatMap_cons]
    constructor
    · rintro ⟨⟨key, json⟩, hmem, rest, rfl, hrest⟩
      rw [unknownIn] at hrest
      cases hfield : fields.byKey? key with
      | none =>
        rw [hfield] at hrest
        obtain rfl := List.mem_singleton.1 hrest
        exact .here hmem (byKey?_eq_none_iff.1 hfield)
      | some field =>
        rw [hfield] at hrest
        exact .member hmem hfield ((h field (mem_of_byKey?_eq_some hfield).1 _ _).1 hrest)
    · intro hunknown
      cases hunknown with
      | here hmem hkey =>
        refine ⟨_, hmem, [], rfl, ?_⟩
        rw [unknownIn, byKey?_eq_none_iff.2 hkey]
        exact List.mem_singleton_self _
      | member hmem hfield hinner =>
        refine ⟨_, hmem, _, rfl, ?_⟩
        rw [unknownIn, hfield]
        exact (h _ (mem_of_byKey?_eq_some hfield).1 _ _).2 hinner
  | array items =>
    rw [unknowns_tree_array, Path.mem_flatMap_cons]
    constructor
    · rintro ⟨⟨⟨field, json⟩, i⟩, he, rest, rfl, hrest⟩
      have hzip := List.mem_zipIdx_iff_getElem?.1 he
      obtain ⟨hfield, hitem⟩ := List.getElem?_zip_eq_some.1 hzip
      exact .item hfield hitem ((h field (List.mem_of_getElem? hfield) _ _).1 hrest)
    · intro hunknown
      cases hunknown with
      | item hfield hitem hinner =>
        refine ⟨((_, _), _), ?_, _, rfl, (h _ (List.mem_of_getElem? hfield) _ _).2 hinner⟩
        exact List.mem_zipIdx_iff_getElem?.2 (List.getElem?_zip_eq_some.2 ⟨hfield, hitem⟩)
  | null | bool | number | string => exact iff_of_false List.not_mem_nil nofun

theorem Content.mem_unknown_of {content : Content}
    (h : ∀ message ∈ content.message?, ∀ json path,
      path ∈ message.fields.unknowns.tree json ↔ message.fields.Unknown json path)
    {json : Json} {path : Path} : path ∈ content.unknown json ↔ content.Unknown json path := by
  cases content with
  | plain kind => exact iff_of_false List.not_mem_nil nofun
  | nested message =>
    refine (h message rfl json path).trans ⟨.nested, ?_⟩
    rintro ⟨h⟩
    exact h
  | nestedList message =>
    cases json with
    | array items =>
      refine Path.mem_flatMap_cons.trans ⟨?_, ?_⟩
      · rintro ⟨⟨json, i⟩, he, rest, rfl, hrest⟩
        exact .item (List.mem_zipIdx_iff_getElem?.1 he) ((h message rfl json rest).1 hrest)
      · intro hunknown
        cases hunknown with
        | item hitem hinner =>
          exact ⟨(_, _), List.mem_zipIdx_iff_getElem?.2 hitem, _, rfl, (h message rfl _ _).2 hinner⟩
    | null | bool | number | string | object => exact iff_of_false List.not_mem_nil nofun

theorem Content.mem_unknown_iff {content : Content} {json : Json} {path : Path} :
    path ∈ content.unknown json ↔ content.Unknown json path := by
  induction content using Content.induction generalizing json path with
  | step content ih =>
    exact mem_unknown_of fun message hmessage json path =>
      Fields.mem_unknowns_tree_of fun field hfield json path => ih message hmessage field hfield

theorem Fields.mem_unknowns_tree_iff {fields : Fields} {json : Json} {path : Path} :
    path ∈ fields.unknowns.tree json ↔ fields.Unknown json path :=
  mem_unknowns_tree_of fun _ _ _ _ => Content.mem_unknown_iff

theorem Fields.nodup_unknowns_tree_of {fields : Fields}
    (h : ∀ field ∈ fields.toList, ∀ json, json.Ordered → (field.content.unknown json).Nodup)
    {json : Json} (hordered : json.Ordered) : (fields.unknowns.tree json).Nodup := by
  cases json with
  | object members =>
    obtain ⟨hsorted, hvalues⟩ := Json.ordered_object_iff.1 hordered
    rw [unknowns_tree_object]
    refine Path.nodup_flatMap_cons (Path.nodup_map_member hsorted) fun m hm => ?_
    rw [unknownIn]
    cases hfield : fields.byKey? m.1 with
    | none => exact List.nodup_singleton _
    | some field => exact h field (mem_of_byKey?_eq_some hfield).1 m.2 (hvalues m hm)
  | array items =>
    rw [unknowns_tree_array]
    refine Path.nodup_flatMap_cons (Path.nodup_map_item _) fun e he => ?_
    obtain ⟨hfield, hitem⟩ := List.of_mem_zip (List.fst_mem_of_mem_zipIdx he)
    exact h _ hfield _ (Json.ordered_array_iff.1 hordered _ hitem)
  | null | bool | number | string => exact List.nodup_nil

theorem Content.nodup_unknown {content : Content} {json : Json} (hordered : json.Ordered) :
    (content.unknown json).Nodup := by
  induction content using Content.induction generalizing json with
  | step content ih =>
    have htree : ∀ message ∈ content.message?, ∀ json, json.Ordered →
        (message.fields.unknowns.tree json).Nodup := fun message hmessage json =>
      Fields.nodup_unknowns_tree_of fun field hfield json => ih message hmessage field hfield
    cases content with
    | plain kind => exact List.nodup_nil
    | nested message => exact htree message rfl json hordered
    | nestedList message =>
      cases json with
      | array items =>
        refine Path.nodup_flatMap_cons (Path.nodup_map_item items) fun e he => ?_
        have hitem := List.fst_mem_of_mem_zipIdx he
        exact htree message rfl _ (Json.ordered_array_iff.1 hordered _ hitem)
      | null | bool | number | string | object => exact List.nodup_nil

theorem Fields.nodup_unknowns_tree {fields : Fields} {json : Json} (hordered : json.Ordered) :
    (fields.unknowns.tree json).Nodup :=
  nodup_unknowns_tree_of (fun _ _ _ => Content.nodup_unknown) hordered

theorem Fields.Unknown.ne_nil {fields : Fields} {json : Json} {path : Path}
    (h : fields.Unknown json path) : path ≠ [] := by
  cases h <;> exact List.cons_ne_nil _ _

namespace Message

variable {message : Message} {json : Json} {tree : Tree message.fields} {noted : List Path}

theorem map_places_noted (h : message.decode json = .ok (tree, noted)) :
    noted.map Path.places = message.fields.unknowns.tree json := by
  have hnotes := Decoder.notesInside_tree (Decoder.tracks_ofFields message.fields)
    message.label.name [] json tree noted h
  simpa [Path.under] using hnotes

/-- Reading notes each member that belongs to no field once, and nothing else.  The text of
a noted path consists of the keys and indexes that lead to the member, unless a key has a
lone question mark between its dots: these are left out of the text. -/
theorem decode_notes_unknown (hordered : json.Ordered)
    (h : message.decode json = .ok (tree, noted)) :
    (noted.map Path.places).Nodup ∧
    (∀ path, path ∈ noted.map Path.places ↔ message.fields.Unknown json path) ∧
    ∀ path ∈ noted,
      path.dotted = ".".intercalate (path.places.pieces.filter fun piece => piece != "?") ∧
      (path.dotted = ".".intercalate (path.places.map Json.Step.piece) ↔
        ∀ key, .member key ∈ path → "?" ∉ Text.splitString '.' key) := by
  have hplaces := map_places_noted h
  refine ⟨?_, fun path => ?_, fun path hpath => ⟨Path.dotted_eq path, Path.dotted_eq_iff ?_⟩⟩
  · rw [hplaces]
    exact Fields.nodup_unknowns_tree hordered
  · rw [hplaces]
    exact Fields.mem_unknowns_tree_iff
  · have hmem : path.places ∈ noted.map Path.places := List.mem_map_of_mem hpath
    rw [hplaces, Fields.mem_unknowns_tree_iff] at hmem
    exact hmem.ne_nil

/-- A document with members of no field at three depths. -/
def strayDocument : Json :=
  .object [("child", .object [("flag", .bool true), ("what?", .null)]),
    ("childList", .array [.object [], .object [("a.b", .number (.int 2))]]),
    ("typo", .object [("flag", .null)])]

theorem decode_strayDocument :
    strayDocument.Ordered ∧
      (∃ tree, Specimen.sink.decode strayDocument = .ok (tree,
        [[.member "child", .present, .member "what?"],
          [.member "childList", .item 1, .member "a.b"], [.member "typo"]])) ∧
      (∀ path, Specimen.sink.fields.Unknown strayDocument path ↔
        path ∈ [[.member "child", .member "what?"],
          [.member "childList", .item 1, .member "a.b"], [Json.Step.member "typo"]]) ∧
      Path.dotted [.member "child", .present, .member "what?"] = "child.what?" := by
  have hordered : strayDocument.Ordered := by decide
  have hread : ∃ tree, Specimen.sink.decode strayDocument = .ok (tree,
      [[.member "child", .present, .member "what?"],
        [.member "childList", .item 1, .member "a.b"], [.member "typo"]]) := ⟨_, rfl⟩
  obtain ⟨tree, htree⟩ := hread
  obtain ⟨-, hunknown, htexts⟩ := decode_notes_unknown hordered htree
  refine ⟨hordered, ⟨tree, htree⟩, fun path => (hunknown path).symm, ?_⟩
  exact (htexts _ List.mem_cons_self).1.trans (by decide +kernel)

/-- The key of an unknown member may itself be a question mark, and then nothing is left of
it in the text. -/
theorem decode_question_key :
    (Json.object [("?", .number (.int 1))]).Ordered ∧
      (∃ tree, Agent.config.decode (.object [("?", .number (.int 1))]) =
        .ok (tree, [[.member "?"]])) ∧
      Agent.config.fields.Unknown (.object [("?", .number (.int 1))]) [.member "?"] ∧
      Path.dotted [.member "?"] = "" ∧
      Path.dotted [.member "?"] ≠ ".".intercalate ([Json.Step.member "?"].map Json.Step.piece) := by
  refine ⟨by decide, ⟨_, rfl⟩, .here List.mem_cons_self ?_, rfl, ?_⟩
  · decide +kernel
  · decide +kernel

end Message

end LayeredConfig
