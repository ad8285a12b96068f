import LayeredConfig.Loader
import LayeredConfig.Proofs.ConfigFile.Overlay
import LayeredConfig.Proofs.Message.Site

/-!
# Listing and looking up

The listing of a message walks along its fields and the document of the tree
together.  It goes over the sites that are no nested messages themselves
(`Fields.mem_listing_iff`), in the order of their positions (`Fields.pairwise_listing`),
with the key of each and what the tree holds for it (`Message.entries_eq_map`).  So it
agrees with the lookups of these keys (`Loader.listing_and_lookup`).
-/

namespace LayeredConfig

/-! ## Keys -/

theorem Fields.foldl_dottedKey {parent : List Char} (h : parent ≠ []) (names : List String) :
    names.foldl dottedKey (String.ofList parent) =
      String.ofList (Text.join ['.'] (parent :: names.map String.toList)) := by
  induction names generalizing parent with
  | nil => rfl
  | cons name names ih =>
    have hkey : dottedKey (String.ofList parent) name =
        String.ofList (parent ++ ['.'] ++ name.toList) := by
      rw [dottedKey, if_neg (fun hempty => h (String.ofList_eq_empty_iff.1 hempty))]
      simp [String.ofList_append, String.append_assoc]
    rw [List.foldl_cons, hkey, ih (by simp), Text.join_append_cons, List.map_cons]

theorem Fields.foldl_dottedKey_empty {name : String} (h : name ≠ "") (names : List String) :
    (name :: names).foldl dottedKey "" = Text.dotted (name :: names) := by
  have hname : name.toList ≠ [] := fun hempty => h (String.toList_eq_nil_iff.1 hempty)
  have hfold := foldl_dottedKey hname names
  rw [String.ofList_toList] at hfold
  exact hfold

theorem Site.key_eq_foldl {fields : Fields} (h : fields.ValidNames) (site : Site fields) :
    site.names.foldl Fields.dottedKey "" = site.key := by
  obtain ⟨name, names, hnames⟩ := List.exists_cons_of_ne_nil site.names_ne_nil
  have hvalid := site.valid_names h name (by rw [hnames]; exact List.mem_cons_self)
  rw [key, hnames, Fields.foldl_dottedKey_empty]
  rintro rfl
  exact absurd hvalid (by decide)

/-! ## Later fields -/

section Later

variable {rest : Fields} {label message : Label} {kind : Kind} {sub : Fields} {field : Field}

theorem Place.held_afterPlain (place : Place rest field)
    (tree : Option (Tree (.plain label kind rest))) :
    (afterPlain place).held tree = place.held (tree.map (·.2)) := by
  cases tree <;> rfl

theorem Place.held_afterNested (place : Place rest field)
    (tree : Option (Tree (.nested label message sub rest))) :
    (afterNested place).held tree = place.held (tree.map (·.2)) := by
  cases tree <;> rfl

theorem Place.held_afterNestedList (place : Place rest field)
    (tree : Option (Tree (.nestedList label message sub rest))) :
    (afterNestedList place).held tree = place.held (tree.map (·.2)) := by
  cases tree <;> rfl

end Later

theorem Shows.later {fields rest : Fields} {json : Option Json} {tree : Option (Tree fields)}
    {tail : Option (Tree rest)} {after : ∀ {field : Field}, Place rest field → Place fields field}
    (h : ∀ {field : Field} (place : Place rest field), (after place).held tree = place.held tail)
    (hshows : Shows json tree) : Shows json tail :=
  fun field place => (hshows field (after place)).trans (congrArg _ (h place))

/-! ## Positions -/

def Place.index : {fields : Fields} → {field : Field} → Place fields field → Nat
  | _, _, plain _ _ _ => 0
  | _, _, nested _ _ _ _ => 0
  | _, _, nestedList _ _ _ _ => 0
  | _, _, afterPlain place => place.index + 1
  | _, _, afterNested place => place.index + 1
  | _, _, afterNestedList place => place.index + 1

def Way.indices : {fields target : Fields} → Way fields target → List Nat
  | _, _, stay _ => []
  | _, _, into _ _ place way => place.index :: way.indices

namespace Site

variable {fields rest sub : Fields}

/-- Where the fields on the way stand, and the field itself.  In declaration order, with a
message right before the fields in it, the positions ascend. -/
def position (site : Site fields) : List Nat := site.way.indices ++ [site.place.index]

def later (after : ∀ {field : Field}, Place rest field → Place fields field) :
    Site rest → Site fields
  | ⟨_, .stay _, field, place⟩ => ⟨fields, .stay fields, field, after place⟩
  | ⟨target, .into label message here way, field, place⟩ =>
    ⟨target, .into label message (after here) way, field, place⟩

@[simp] theorem later_names (after : ∀ {field : Field}, Place rest field → Place fields field)
    (site : Site rest) : (later after site).names = site.names := by
  obtain ⟨target, way, field, place⟩ := site
  cases way <;> rfl

@[simp] theorem later_field (after : ∀ {field : Field}, Place rest field → Place fields field)
    (site : Site rest) : (later after site).field = site.field := by
  obtain ⟨target, way, field, place⟩ := site
  cases way <;> rfl

/-- A later site displays the part of the tree that is its own. -/
theorem later_display (after : ∀ {field : Field}, Place rest field → Place fields field)
    {tree : Option (Tree fields)} {tail : Option (Tree rest)}
    (h : ∀ {field : Field} (place : Place rest field), (after place).held tree = place.held tail)
    (site : Site rest) : (later after site).display tree = site.display tail := by
  obtain ⟨target, way, field, place⟩ := site
  cases way with
  | stay =>
    have hheld := h place
    cases tree <;> cases tail <;>
      exact congrArg (fun slot => displayValue (field.content.document? slot)) hheld
  | into label message here way =>
    have hheld := h here
    cases tree <;> cases tail <;>
      exact congrArg (fun slot => displayValue (field.content.document?
        (place.held ((slot : Option (Tree message.fields)).bind way.reach?)))) hheld

theorem inside_display (label message : Label)
    (here : Place fields ⟨label, .nested ⟨message, sub⟩⟩) (site : Site sub)
    (tree : Option (Tree fields)) :
    (inside label message here site).display tree = site.display (here.held tree) := by
  cases tree <;> rfl

theorem inside_position (label message : Label)
    (here : Place fields ⟨label, .nested ⟨message, sub⟩⟩) (site : Site sub) :
    (inside label message here site).position = here.index :: site.position := rfl

theorem exists_position_later (after : ∀ {field : Field}, Place rest field → Place fields field)
    (h : ∀ {field : Field} (place : Place rest field), (after place).index = place.index + 1)
    (site : Site rest) : ∃ index indices, site.position = index :: indices ∧
      (later after site).position = (index + 1) :: indices := by
  obtain ⟨target, way, field, place⟩ := site
  cases way with
  | stay => exact ⟨place.index, [], rfl, congrArg (· :: []) (h place)⟩
  | into label message here way =>
    exact ⟨here.index, way.indices ++ [place.index], rfl, congrArg (· :: _) (h here)⟩

theorem later_position_lt_iff (after : ∀ {field : Field}, Place rest field → Place fields field)
    (h : ∀ {field : Field} (place : Place rest field), (after place).index = place.index + 1)
    (site other : Site rest) :
    (later after site).position < (later after other).position ↔
      site.position < other.position := by
  obtain ⟨index, indices, hsite, hlater⟩ := exists_position_later after h site
  obtain ⟨index', indices', hother, hlater'⟩ := exists_position_later after h other
  rw [hsite, hother, hlater, hlater', List.cons_lt_cons_iff, List.cons_lt_cons_iff]
  simp

/-- What is at the first field, or in it, comes before the later sites. -/
theorem zero_cons_lt_position_later
    (after : ∀ {field : Field}, Place rest field → Place fields field)
    (h : ∀ {field : Field} (place : Place rest field), (after place).index = place.index + 1)
    (indices : List Nat) (site : Site rest) : 0 :: indices < (later after site).position := by
  obtain ⟨index, more, -, hlater⟩ := exists_position_later after h site
  rw [hlater, List.cons_lt_cons_iff]
  exact Or.inl index.succ_pos

end Site

/-! ## Listing -/

def Content.isNested : Content → Bool
  | nested _ => true
  | plain _ | nestedList _ => false

namespace Fields

/-- The sites that are listed, in declaration order. -/
def listing : (fields : Fields) → List (Site fields)
  | nil => []
  | plain label kind rest =>
    ⟨_, .stay _, _, .plain label kind rest⟩ :: rest.listing.map (Site.later .afterPlain)
  | nested label message sub rest =>
    sub.listing.map (Site.inside label message (.nested label message sub rest)) ++
      rest.listing.map (Site.later .afterNested)
  | nestedList label message sub rest =>
    ⟨_, .stay _, _, .nestedList label message sub rest⟩ ::
      rest.listing.map (Site.later .afterNestedList)

theorem map_later {rest fields : Fields}
    {after : ∀ {field : Field}, Place rest field → Place fields field}
    {tree : Option (Tree fields)} {tail : Option (Tree rest)}
    (h : ∀ {field : Field} (place : Place rest field), (after place).held tree = place.held tail)
    (parent : String) (sites : List (Site rest)) :
    (sites.map (Site.later after)).map
        (fun site => (site.names.foldl dottedKey parent, site.display tree)) =
      sites.map fun site => (site.names.foldl dottedKey parent, site.display tail) := by
  rw [List.map_map]
  refine List.map_congr_left fun site _ => ?_
  rw [Function.comp, Site.later_names, Site.later_display after h]

/-- The listing goes over the listed sites, given a document that shows the tree. -/
theorem entries_eq_map {fields : Fields} (h : fields.Distinct) {json : Option Json}
    {tree : Option (Tree fields)} (hshows : Shows json tree) (parent : String) :
    fields.entries json parent =
      fields.listing.map fun site => (site.names.foldl dottedKey parent, site.display tree) := by
  induction fields generalizing json parent with
  | nil => rfl
  | plain label kind rest ih =>
    have hlater : ∀ {field : Field} (place : Place rest field),
        (Place.afterPlain place).held tree = place.held (tree.map (·.2)) :=
      fun place => place.held_afterPlain tree
    have hfield := hshows _ (.plain label kind rest)
    rw [entries, listing, List.map_cons, map_later hlater, hfield,
      ih h.2 (hshows.later hlater)]
    cases tree <;> rfl
  | nested label message sub rest ihsub ih =>
    have hlater : ∀ {field : Field} (place : Place rest field),
        (Place.afterNested place).held tree = place.held (tree.map (·.2)) :=
      fun place => place.held_afterNested tree
    have hsub := ihsub h.2.1 (shows_toSortedJson h.2.1
      ((Place.nested label message sub rest).held tree)) (dottedKey parent label.name)
    have hfield := hshows _ (.nested label message sub rest)
    rw [entries, listing, List.map_append, map_later hlater, hfield, ih h.2.2 (hshows.later hlater)]
    refine congrArg (· ++ _) (hsub.trans ?_)
    rw [List.map_map]
    refine List.map_congr_left fun site _ => ?_
    rw [Function.comp, Site.inside_names, Site.inside_display, List.foldl_cons]
  | nestedList label message sub rest _ ih =>
    have hlater : ∀ {field : Field} (place : Place rest field),
        (Place.afterNestedList place).held tree = place.held (tree.map (·.2)) :=
      fun place => place.held_afterNestedList tree
    have hfield := hshows _ (.nestedList label message sub rest)
    rw [entries, listing, List.map_cons, map_later hlater, hfield,
      ih h.2.2 (hshows.later hlater)]
    cases tree <;> rfl

theorem pairwise_map_later {rest fields : Fields}
    (after : ∀ {field : Field}, Place rest field → Place fields field)
    (h : ∀ {field : Field} (place : Place rest field), (after place).index = place.index + 1)
    {sites : List (Site rest)}
    (hsites : sites.Pairwise fun site other => site.position < other.position) :
    (sites.map (Site.later after)).Pairwise fun site other => site.position < other.position :=
  List.pairwise_map.2 (hsites.imp fun hlt => (Site.later_position_lt_iff after h _ _).2 hlt)

theorem pairwise_listing (fields : Fields) :
    fields.listing.Pairwise fun site other => site.position < other.position := by
  induction fields with
  | nil => exact List.Pairwise.nil
  | plain label kind rest ih =>
    refine List.pairwise_cons.2 ⟨List.forall_mem_map.2 fun site _ => ?_,
      pairwise_map_later .afterPlain (fun _ => rfl) ih⟩
    exact Site.zero_cons_lt_position_later .afterPlain (fun _ => rfl) [] site
  | nested label message sub rest ihsub ih =>
    refine List.pairwise_append.2 ⟨List.pairwise_map.2 (ihsub.imp fun hlt => ?_),
      pairwise_map_later .afterNested (fun _ => rfl) ih,
      List.forall_mem_map.2 fun site _ => List.forall_mem_map.2 fun other _ => ?_⟩
    · rw [Site.inside_position, Site.inside_position, List.cons_lt_cons_iff]
      exact Or.inr ⟨rfl, hlt⟩
    · exact Site.zero_cons_lt_position_later .afterNested (fun _ => rfl) _ other
  | nestedList label message sub rest _ ih =>
    refine List.pairwise_cons.2 ⟨List.forall_mem_map.2 fun site _ => ?_,
      pairwise_map_later .afterNestedList (fun _ => rfl) ih⟩
    exact Site.zero_cons_lt_position_later .afterNestedList (fun _ => rfl) [] site

theorem mem_listing_of_place {fields : Fields} {field : Field} (place : Place fields field)
    (h : field.content.isNested = false) : ⟨fields, .stay fields, field, place⟩ ∈ fields.listing := by
  induction place with
  | plain | nestedList => exact List.mem_cons_self
  | nested => exact nomatch h
  | afterPlain _ ih | afterNestedList _ ih =>
    exact List.mem_cons_of_mem _ (List.mem_map.2 ⟨_, ih h, rfl⟩)
  | afterNested _ ih => exact List.mem_append_right _ (List.mem_map.2 ⟨_, ih h, rfl⟩)

theorem mem_listing_inside {fields : Fields} {label : Label} {message : Message}
    (here : Place fields ⟨label, .nested message⟩) {site : Site message.fields}
    (h : site ∈ message.fields.listing) :
    site.inside label message.label here ∈ fields.listing := by
  induction fields with
  | nil => cases here
  | plain _ _ rest ih =>
    cases here with
    | afterPlain here => exact List.mem_cons_of_mem _ (List.mem_map.2 ⟨_, ih here, rfl⟩)
  | nested _ _ sub rest _ ih =>
    cases here with
    | nested => exact List.mem_append_left _ (List.mem_map.2 ⟨site, h, rfl⟩)
    | afterNested here => exact List.mem_append_right _ (List.mem_map.2 ⟨_, ih here, rfl⟩)
  | nestedList _ _ _ rest _ ih =>
    cases here with
    | afterNestedList here => exact List.mem_cons_of_mem _ (List.mem_map.2 ⟨_, ih here, rfl⟩)

/-- All fields that are no nested messages are listed, and nothing else. -/
theorem mem_listing_iff {fields : Fields} {site : Site fields} :
    site ∈ fields.listing ↔ site.field.content.isNested = false := by
  refine ⟨fun h => ?_, fun h => ?_⟩
  · induction fields with
    | nil => exact nomatch h
    | plain label kind rest ih =>
      rcases List.mem_cons.1 h with rfl | h
      · rfl
      · obtain ⟨site, hsite, rfl⟩ := List.mem_map.1 h
        rw [Site.later_field]
        exact ih hsite
    | nested label message sub rest ihsub ih =>
      rcases List.mem_append.1 h with h | h
      · obtain ⟨site, hsite, rfl⟩ := List.mem_map.1 h
        exact ihsub hsite
      · obtain ⟨site, hsite, rfl⟩ := List.mem_map.1 h
        rw [Site.later_field]
        exact ih hsite
    | nestedList label message sub rest _ ih =>
      rcases List.mem_cons.1 h with rfl | h
      · rfl
      · obtain ⟨site, hsite, rfl⟩ := List.mem_map.1 h
        rw [Site.later_field]
        exact ih hsite
  · obtain ⟨target, way, field, place⟩ := site
    induction way with
    | stay => exact mem_listing_of_place place h
    | into label message here way ih => exact mem_listing_inside here (ih place h)

end Fields

namespace Message

variable {message : Message}

/-- The listing has an entry for every listed site, under its key and with what is
displayed for it. -/
theorem entries_eq_map (hdistinct : message.fields.Distinct) (hvalid : message.fields.ValidNames)
    (tree : Tree message.fields) :
    message.entries tree =
      message.fields.listing.map fun site => (site.key, site.display (some tree)) := by
  have hshows := shows_toSortedJson hdistinct (some tree)
  refine (Fields.entries_eq_map hdistinct hshows "").trans ?_
  refine List.map_congr_left fun site _ => ?_
  rw [site.key_eq_foldl hvalid]

theorem nodup_keys_entries (hdistinct : message.fields.Distinct)
    (hvalid : message.fields.ValidNames) (tree : Tree message.fields) :
    (Assoc.keys (message.entries tree)).Nodup := by
  rw [entries_eq_map hdistinct hvalid, Assoc.keys, List.map_map, List.Nodup, List.pairwise_map]
  refine (Fields.pairwise_listing message.fields).imp fun {site other} hlt heq => ?_
  rw [Site.eq_of_key_eq hdistinct hvalid heq] at hlt
  exact lt_irrefl _ hlt

end Message

namespace Loader

theorem result_handle_get {message : Message} (loader : Loader message) (files : FileSystem)
    (key : String) :
    (loader.handle files (.get key)).result =
      match message.entry? (loader.load files).1 key with
      | some found => .ok (.keyValue key found.1 found.2)
      | none => .error (.keyNotFound key) := by
  cases h : message.entry? (loader.load files).1 key <;> simp [handle, h]

/-- Listing and lookup agree, for the message types of accepted schemas.  The listed sites
are the fields that are no nested messages, in declaration order.  For every tree, the listing
has one entry for each of them, under its own key, and a lookup of that key finds the same text
with the documentation of the field.  A lookup finds something for the keys of all sites,
nested messages included, and for no other key; a loader answers these with an error. -/
theorem listing_and_lookup {raw : RawSchema} {schema : Schema}
    (hschema : Schema.resolve raw = .ok schema) {name : String} {message : Message}
    (hmessage : schema.messageType? name = some message) :
    ((∀ site : Site message.fields,
        site ∈ message.fields.listing ↔ site.field.content.isNested = false) ∧
      message.fields.listing.Pairwise fun site other => site.position < other.position) ∧
    (∀ tree : Tree message.fields,
      message.entries tree =
        message.fields.listing.map (fun site => (site.key, site.display (some tree))) ∧
      (Assoc.keys (message.entries tree)).Nodup ∧
      (∀ entry ∈ message.entries tree, ∃ site ∈ message.fields.listing, site.key = entry.1 ∧
        message.entry? tree entry.1 = some (entry.2, site.field.label.doc)) ∧
      ∀ key, (∃ found, message.entry? tree key = some found) ↔
        ∃ site : Site message.fields, site.key = key) ∧
    ∀ (loader : Loader message) (files : FileSystem),
      (loader.handle files (.display false)).result =
        .ok (.listing (message.entries (loader.load files).1)) ∧
      (∀ site : Site message.fields, (loader.handle files (.get site.key)).result =
        .ok (.keyValue site.key (site.display (some (loader.load files).1))
          site.field.label.doc)) ∧
      ∀ key, (∀ site : Site message.fields, site.key ≠ key) →
        (loader.handle files (.get key)).result = .error (.keyNotFound key) := by
  have hdistinct := Schema.distinct_of_messageType? hschema hmessage
  have hvalid := Schema.validNames_of_messageType? hschema hmessage
  refine ⟨⟨fun site => Fields.mem_listing_iff, Fields.pairwise_listing message.fields⟩,
    fun tree => ⟨Message.entries_eq_map hdistinct hvalid tree,
      Message.nodup_keys_entries hdistinct hvalid tree, fun entry hentry => ?_,
      fun key => Message.exists_entry?_iff hdistinct hvalid tree key⟩,
    fun loader files => ⟨rfl, fun site => ?_, fun key hkey => ?_⟩⟩
  · rw [Message.entries_eq_map hdistinct hvalid] at hentry
    obtain ⟨site, hsite, rfl⟩ := List.mem_map.1 hentry
    exact ⟨site, hsite, rfl, Message.entry?_key hdistinct hvalid tree site⟩
  · rw [result_handle_get, Message.entry?_key hdistinct hvalid]
  · have hnone : message.entry? (loader.load files).1 key = none := by
      refine Option.eq_none_iff_forall_ne_some.2 fun found hfound => ?_
      obtain ⟨site, hsite⟩ := (Message.exists_entry?_iff hdistinct hvalid _ key).1 ⟨found, hfound⟩
      exact hkey site hsite
    rw [result_handle_get, hnone]

/-- The keys of a message with a nested one.  A dot at the end leads to nothing. -/
theorem listing_and_lookup_sampleMessage :
    Schema.resolve ConfigFile.sampleDeclaration = .ok ConfigFile.sampleSchema ∧
      ConfigFile.sampleSchema.messageType? "Root" = some ConfigFile.sampleMessage ∧
      (∀ tree : Tree ConfigFile.sampleMessage.fields,
        Assoc.keys (ConfigFile.sampleMessage.entries tree) =
          ["service_name", "limits.max_count", "limits.tags", "labels"]) ∧
      (∃ site : Site ConfigFile.sampleMessage.fields, site.key = "limits") ∧
      ∀ site : Site ConfigFile.sampleMessage.fields, site.key ≠ "limits." := by
  have hschema : Schema.resolve ConfigFile.sampleDeclaration = .ok ConfigFile.sampleSchema := rfl
  have hmessage : ConfigFile.sampleSchema.messageType? "Root" = some ConfigFile.sampleMessage :=
    rfl
  have hagree := (listing_and_lookup hschema hmessage).2.1
  refine ⟨hschema, hmessage, fun tree => ?_, ?_, fun site hsite => ?_⟩
  · rw [(hagree tree).1, Assoc.keys, List.map_map]
    rfl
  · exact ((hagree (Tree.empty _)).2.2.2 "limits").1 ⟨_, rfl⟩
  · obtain ⟨found, hfound⟩ := ((hagree (Tree.empty _)).2.2.2 "limits.").2 ⟨site, hsite⟩
    cases hfound

end Loader

end LayeredConfig
