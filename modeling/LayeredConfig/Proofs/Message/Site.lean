import LayeredConfig.Message.Listing
import LayeredConfig.Proofs.Message.Flat

/-!
# Looking up keys

A `Site` is a field that is reached through nested messages only, and its key is
made of the names on the way with dots between them.  A lookup cuts the key at its
dots and follows the pieces twice, in the fields and in the document of the tree.
It finds something exactly for the keys of sites (`Message.exists_entry?_iff`), and
then displays what the tree holds for the field (`Message.entry?_key`).
-/

namespace LayeredConfig

/-! ## Documents of fields -/

/-- The document of what a field holds; nothing for an unset field. -/
def Content.document? : (content : Content) → content.Slot → Option Json
  | plain kind, slot => (kind.toJson? slot).map Json.sort
  | nested message, slot => (slot : Option (Tree message.fields)).map Tree.toSortedJson
  | nestedList _, slot => Tree.nestedListDoc slot

theorem Content.document?_unset (content : Content) : content.document? content.unset = none := by
  cases content with
  | plain kind => rw [document?, unset, Kind.toJson?_eq_none_iff.2 rfl, Option.map_none]
  | nested | nestedList => rfl

theorem Place.name_ne {rest : Fields} {field : Field} (place : Place rest field) {label : Label}
    (h : label.name ∉ rest.names) : field.label.name ≠ label.name :=
  fun heq => h (heq ▸ List.mem_map_of_mem place.mem_toList)

namespace Tree

theorem find?_memberOf_append_self {rest : Fields} {label : Label} (h : label.name ∉ rest.names)
    (json : Option Json) (tree : Tree rest) :
    Assoc.find? label.name (memberOf label json ++ sortedMembers rest tree) = json := by
  rw [Assoc.find?_append, find?_memberOf, if_pos rfl,
    Assoc.find?_eq_none_iff.2 (mt mem_names_of_mem_keys h), Option.or_none]

theorem find?_memberOf_append_of_ne {key : String} {label : Label} (h : key ≠ label.name)
    (json : Option Json) (members : Json.Members) :
    Assoc.find? key (memberOf label json ++ members) = Assoc.find? key members := by
  rw [Assoc.find?_append, find?_memberOf, if_neg h, Option.none_or]

theorem find?_sortedMembers {fields : Fields} (h : fields.Distinct) {field : Field}
    (place : Place fields field) (tree : Tree fields) :
    Assoc.find? field.label.name (sortedMembers fields tree) =
      field.content.document? (tree.slot place) := by
  induction place with
  | plain label kind rest =>
    obtain ⟨slot, tree⟩ := tree
    rw [sortedMembers_plain, find?_memberOf_append_self h.1]
    rfl
  | nested label message sub rest =>
    obtain ⟨slot, tree⟩ := tree
    rw [sortedMembers_nested, find?_memberOf_append_self h.1]
    exact congrArg (Option.map · slot) (funext fun tree => (toSortedJson_eq tree).symm)
  | nestedList label message sub rest =>
    obtain ⟨slot, tree⟩ := tree
    rw [sortedMembers_nestedList, find?_memberOf_append_self h.1]
    rfl
  | afterPlain place ih =>
    obtain ⟨slot, tree⟩ := tree
    rw [sortedMembers_plain, find?_memberOf_append_of_ne (place.name_ne h.1), ih h.2]
    rfl
  | afterNested place ih =>
    obtain ⟨slot, tree⟩ := tree
    rw [sortedMembers_nested, find?_memberOf_append_of_ne (place.name_ne h.1), ih h.2.2]
    rfl
  | afterNestedList place ih =>
    obtain ⟨slot, tree⟩ := tree
    rw [sortedMembers_nestedList, find?_memberOf_append_of_ne (place.name_ne h.1), ih h.2.2]
    rfl

end Tree

/-- A document has what a tree holds under the names of the fields.  Both may be absent. -/
def Shows {fields : Fields} (json : Option Json) (tree : Option (Tree fields)) : Prop :=
  ∀ (field : Field) (place : Place fields field),
    json.bind (·.get? field.label.name) = field.content.document? (place.held tree)

theorem shows_toSortedJson {fields : Fields} (h : fields.Distinct) (tree : Option (Tree fields)) :
    Shows (tree.map Tree.toSortedJson) tree := by
  intro field place
  cases tree with
  | none => exact field.content.document?_unset.symm
  | some tree =>
    rw [Option.map_some, Option.bind_some, Tree.toSortedJson_eq, Json.get?,
      Assoc.find?_ofList (Tree.nodup_keys_sortedMembers h tree), Tree.find?_sortedMembers h]
    rfl

/-! ## Sites -/

/-- A field that is reached through nested messages, with the way to its message. -/
structure Site (fields : Fields) where
  target : Fields
  way : Way fields target
  field : Field
  place : Place target field

namespace Site

variable {fields sub : Fields}

def names (site : Site fields) : List String := site.way.names ++ [site.field.label.name]

def key (site : Site fields) : String := Text.dotted site.names

/-- What a tree holds for the field; the unset value where it stops before. -/
def held (site : Site fields) (tree : Option (Tree fields)) : site.field.content.Slot :=
  site.place.held (tree.bind site.way.reach?)

def display (site : Site fields) (tree : Option (Tree fields)) : String :=
  displayValue (site.field.content.document? (site.held tree))

def inside (label message : Label) (here : Place fields ⟨label, .nested ⟨message, sub⟩⟩)
    (site : Site sub) : Site fields :=
  ⟨site.target, .into label ⟨message, sub⟩ here site.way, site.field, site.place⟩

@[simp] theorem inside_names (label message : Label)
    (here : Place fields ⟨label, .nested ⟨message, sub⟩⟩) (site : Site sub) :
    (inside label message here site).names = label.name :: site.names := rfl

theorem valid_names (h : fields.ValidNames) (site : Site fields) :
    ∀ name ∈ site.names, Name.isFieldName name = true := by
  obtain ⟨target, way, field, place⟩ := site
  induction way with
  | stay => exact List.forall_mem_singleton.2 (place.validNames h).1
  | into label message here way ih =>
    obtain ⟨hname, hsub⟩ := here.validNames h
    exact List.forall_mem_cons.2 ⟨hname, ih hsub place⟩

theorem names_ne_nil (site : Site fields) : site.names ≠ [] := by simp [names]

theorem splitString_key (h : fields.ValidNames) (site : Site fields) :
    Text.splitString '.' site.key = site.names :=
  Text.splitString_dotted site.names_ne_nil fun name hname =>
    Name.not_mem_of_isFieldName (site.valid_names h name hname) (by decide) (by decide) (by decide)

end Site

/-! ## Looking up -/

theorem Place.eq_of_name_eq {fields : Fields} {field other : Field} (h : fields.Distinct)
    (place : Place fields field) (elsewhere : Place fields other)
    (hname : field.label.name = other.label.name) :
    (⟨field, place⟩ : (field : Field) × Place fields field) = ⟨other, elsewhere⟩ := by
  induction place with
  | plain =>
    cases elsewhere with
    | plain => rfl
    | afterPlain elsewhere => exact absurd hname.symm (elsewhere.name_ne h.1)
  | nested =>
    cases elsewhere with
    | nested => rfl
    | afterNested elsewhere => exact absurd hname.symm (elsewhere.name_ne h.1)
  | nestedList =>
    cases elsewhere with
    | nestedList => rfl
    | afterNestedList elsewhere => exact absurd hname.symm (elsewhere.name_ne h.1)
  | afterPlain place ih =>
    cases elsewhere with
    | plain => exact absurd hname (place.name_ne h.1)
    | afterPlain elsewhere =>
      cases ih h.2 elsewhere hname
      rfl
  | afterNested place ih =>
    cases elsewhere with
    | nested => exact absurd hname (place.name_ne h.1)
    | afterNested elsewhere =>
      cases ih h.2.2 elsewhere hname
      rfl
  | afterNestedList place ih =>
    cases elsewhere with
    | nestedList => exact absurd hname (place.name_ne h.1)
    | afterNestedList elsewhere =>
      cases ih h.2.2 elsewhere hname
      rfl

def Content.Distinct : Content → Prop
  | plain _ => True
  | nested message | nestedList message => message.fields.Distinct

theorem Place.distinct {fields : Fields} {field : Field} (place : Place fields field)
    (h : fields.Distinct) : field.content.Distinct := by
  induction place with
  | plain => trivial
  | nested | nestedList => exact h.2.1
  | afterPlain _ ih => exact ih h.2
  | afterNested _ ih | afterNestedList _ ih => exact ih h.2.2

namespace Fields

theorem exists_place_of_find? {fields : Fields} {name : String} {field : Field}
    (h : fields.find? name = some field) :
    Nonempty (Place fields field) ∧ field.label.name = name := by
  have hname := List.find?_some (p := fun field : Field => decide (field.label.name = name)) h
  exact ⟨Place.nonempty_iff_mem_toList.2 (List.mem_of_find?_eq_some h), of_decide_eq_true hname⟩

theorem find?_name {fields : Fields} (h : fields.Distinct) {field : Field}
    (place : Place fields field) : fields.find? field.label.name = some field := by
  cases hfind : fields.find? field.label.name with
  | none =>
    have hnone := List.find?_eq_none.1 hfind field place.mem_toList
    exact absurd (decide_eq_true rfl) hnone
  | some other =>
    obtain ⟨⟨elsewhere⟩, hname⟩ := exists_place_of_find? hfind
    cases place.eq_of_name_eq h elsewhere hname.symm
    rfl

theorem lookup?_cons {fields : Fields} (name : String) {names : List String} (h : names ≠ []) :
    fields.lookup? (name :: names) =
      match fields.find? name with
      | some ⟨_, .nested message⟩ => message.fields.lookup? names
      | _ => none := by
  obtain ⟨next, names, rfl⟩ := List.exists_cons_of_ne_nil h
  rfl

/-- The names of a site lead to its field. -/
theorem lookup?_names {fields : Fields} (h : fields.Distinct) (site : Site fields) :
    fields.lookup? site.names = some site.field := by
  obtain ⟨target, way, field, place⟩ := site
  induction way with
  | stay => exact find?_name h place
  | into label message here way ih =>
    refine (lookup?_cons label.name (Site.names_ne_nil ⟨_, way, field, place⟩)).trans ?_
    rw [find?_name h here]
    exact ih (here.distinct h) place

/-- A lookup leads to nothing but sites. -/
theorem exists_site_of_lookup? {fields : Fields} {names : List String} {field : Field}
    (h : fields.lookup? names = some field) :
    ∃ site : Site fields, site.names = names ∧ site.field = field := by
  induction names generalizing fields with
  | nil => exact nomatch h
  | cons name names ih =>
    rcases eq_or_ne names [] with rfl | hnames
    · obtain ⟨⟨place⟩, rfl⟩ := exists_place_of_find? h
      exact ⟨⟨fields, .stay fields, field, place⟩, rfl, rfl⟩
    · rw [lookup?_cons name hnames] at h
      split at h
      · rename_i label message hfind
        obtain ⟨⟨here⟩, rfl⟩ := exists_place_of_find? hfind
        obtain ⟨site, rfl, rfl⟩ := ih h
        exact ⟨site.inside label message.label here, rfl, rfl⟩
      · exact nomatch h

end Fields

namespace Site

variable {fields : Fields}

theorem eq_of_names_eq (h : fields.Distinct) {site other : Site fields}
    (hnames : site.names = other.names) : site = other := by
  obtain ⟨target, way, field, place⟩ := site
  obtain ⟨target', way', field', place'⟩ := other
  induction way with
  | stay =>
    cases way' with
    | stay =>
      cases place.eq_of_name_eq h place' (List.singleton_inj.1 hnames)
      rfl
    | into label message here way' =>
      have hlength := congrArg List.length hnames
      simp [names, Way.names] at hlength
  | into label message here way ih =>
    cases way' with
    | stay =>
      have hlength := congrArg List.length hnames
      simp [names, Way.names] at hlength
    | into label' message' here' way' =>
      obtain ⟨hname, hrest⟩ := List.cons.inj hnames
      cases here.eq_of_name_eq h here' hname
      cases ih (here.distinct h) place way' hrest
      rfl

theorem eq_of_key_eq (hdistinct : fields.Distinct) (hvalid : fields.ValidNames)
    {site other : Site fields} (h : site.key = other.key) : site = other := by
  refine eq_of_names_eq hdistinct ?_
  rw [← splitString_key hvalid, ← splitString_key hvalid, h]

theorem foldl_get?_names (h : fields.Distinct) (site : Site fields) {json : Option Json}
    {tree : Option (Tree fields)} (hshows : Shows json tree) :
    site.names.foldl (fun json name => json.bind (·.get? name)) json =
      site.field.content.document? (site.held tree) := by
  obtain ⟨target, way, field, place⟩ := site
  induction way generalizing json with
  | stay =>
    refine (hshows _ place).trans ?_
    cases tree <;> rfl
  | into label message here way ih =>
    have hsub : json.bind (·.get? label.name) =
        (here.held tree : Option (Tree message.fields)).map Tree.toSortedJson := hshows _ here
    have hrest := ih (here.distinct h) (shows_toSortedJson (here.distinct h) (here.held tree)) place
    rw [names, Way.names, List.cons_append, List.foldl_cons, hsub]
    refine hrest.trans ?_
    cases tree <;> rfl

end Site

namespace Message

variable {message : Message}

/-- The key of a site finds its field and displays what the tree holds for it. -/
theorem entry?_key (hdistinct : message.fields.Distinct) (hvalid : message.fields.ValidNames)
    (tree : Tree message.fields) (site : Site message.fields) :
    message.entry? tree site.key = some (site.display (some tree), site.field.label.doc) := by
  have hfold := site.foldl_get?_names hdistinct (shows_toSortedJson hdistinct (some tree))
  rw [Option.map_some] at hfold
  unfold entry?
  rw [lookup?, site.splitString_key hvalid, Fields.lookup?_names hdistinct, Option.map_some, hfold]
  rfl

theorem exists_entry?_iff (hdistinct : message.fields.Distinct)
    (hvalid : message.fields.ValidNames) (tree : Tree message.fields) (key : String) :
    (∃ found, message.entry? tree key = some found) ↔
      ∃ site : Site message.fields, site.key = key := by
  constructor
  · rintro ⟨found, h⟩
    obtain ⟨field, hfield, -⟩ := Option.map_eq_some_iff.1 h
    obtain ⟨site, hnames, -⟩ := Fields.exists_site_of_lookup? hfield
    exact ⟨site, by rw [Site.key, hnames, Text.dotted_splitString]⟩
  · rintro ⟨site, rfl⟩
    exact ⟨_, entry?_key hdistinct hvalid tree site⟩

end Message

end LayeredConfig
