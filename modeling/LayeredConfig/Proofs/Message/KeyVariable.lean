import LayeredConfig.Proofs.Message.Listing

/-!
# Variables and keys

The listing of variables and the listing of values are two walks along the fields of
a message, and they build their names in different ways: a variable from suffixes in
capitals, a key from names with dots between them.  The settings are the listed sites
that are plain fields, in the same order (`Fields.filter_listing`), and the variable of
a setting is its key in capitals (`Setting.variableName_eq_key`).  So the names of the
variables can be read off the listed keys (`Message.variables_mirror_keys`).
-/

namespace LayeredConfig

/-- A key in capitals, with underscores for its dots. -/
def Name.ofKey (key : String) : String :=
  String.ofList (key.toList.map fun c => if c = '.' then '_' else c.toUpper)

namespace Content

/-- The environment can set the field: it holds a single value, or a list of them. -/
def isSettable : Content → Bool
  | plain (.leaf _) | plain (.list _) => true
  | plain (.map _ _) | nested _ | nestedList _ => false

def isPlain : Content → Bool
  | plain _ => true
  | nested _ | nestedList _ => false

theorem isPlain_of_isSettable {content : Content} (h : content.isSettable = true) :
    content.isPlain = true := by
  cases content with
  | plain => rfl
  | nested | nestedList => exact nomatch h

end Content

theorem Kind.isSettable_plain (kind : Kind) :
    (Content.plain kind).isSettable = kind.variableType?.isSome := by
  cases kind with
  | leaf | list | map => rfl

namespace Setting

variable {fields rest sub : Fields}

def toSite (setting : Setting fields) : Site fields :=
  ⟨setting.target, setting.way, ⟨setting.label, .plain setting.kind⟩, setting.place⟩

theorem toSite_later (after : ∀ {field : Field}, Place rest field → Place fields field)
    (setting : Setting rest) : (later after setting).toSite = setting.toSite.later after := by
  obtain ⟨target, way, label, kind, place⟩ := setting
  cases way with
  | stay | into => rfl

/-- The variable of a setting is its key in capitals, after the stem. -/
theorem variableName_eq_key (h : fields.ValidNames) (setting : Setting fields) (stem : String) :
    setting.variableName stem = stem ++ Name.ofKey setting.toSite.key := by
  have hnames : ∀ name ∈ setting.names.map String.toList,
      (name.map fun c => if c = '.' then '_' else c.toUpper) = name.map Char.toUpper := by
    refine List.forall_mem_map.2 fun name hname => List.map_congr_left fun c hc => if_neg ?_
    rintro rfl
    have hvalid := setting.toSite.valid_names h name hname
    exact Name.not_mem_of_isFieldName hvalid (by decide) (by decide) (by decide) hc
  have hkey : Name.ofKey setting.toSite.key = Name.capitals setting.flatName := by
    have hparts := List.map_congr_left hnames
    rw [Name.ofKey, Site.key, Text.dotted, String.toList_ofList, Text.map_join, Name.capitals,
      flatName, String.toList_ofList, Text.map_join]
    exact congrArg (fun parts => String.ofList (Text.join ['_'] parts)) hparts
  rw [setting.variableName_eq h, hkey]

end Setting

namespace Fields

theorem filter_map_later {rest fields : Fields}
    (after : ∀ {field : Field}, Place rest field → Place fields field)
    (ih : rest.listing.filter (fun site => site.field.content.isPlain) =
      rest.settings.map Setting.toSite) :
    (rest.listing.map (Site.later after)).filter (fun site => site.field.content.isPlain) =
      (rest.settings.map (Setting.later after)).map Setting.toSite := by
  rw [List.filter_map, List.map_map]
  simp only [Function.comp_def, Site.later_field, Setting.toSite_later]
  rw [ih, List.map_map]
  rfl

theorem filter_listing (fields : Fields) :
    fields.listing.filter (fun site => site.field.content.isPlain) =
      fields.settings.map Setting.toSite := by
  induction fields with
  | nil => rfl
  | plain label kind rest ih =>
    rw [listing, settings, List.filter_cons_of_pos rfl, filter_map_later .afterPlain ih]
    rfl
  | nested label message sub rest ihsub ih =>
    rw [listing, settings, List.filter_append, List.map_append, filter_map_later .afterNested ih,
      List.filter_map, List.map_map]
    refine congrArg (· ++ _) ((congrArg (List.map _) ihsub).trans ?_)
    rw [List.map_map, List.map_map]
    rfl
  | nestedList label message sub rest _ ih =>
    rw [listing, settings, List.filter_cons_of_neg Bool.false_ne_true,
      filter_map_later .afterNestedList ih]

theorem map_toSite_settable (fields : Fields) :
    fields.settable.map Setting.toSite =
      fields.listing.filter fun site => site.field.content.isSettable := by
  have hplain : (fun site : Site fields => site.field.content.isSettable) =
      fun site => site.field.content.isSettable && site.field.content.isPlain := by
    funext site
    cases h : site.field.content.isSettable with
    | false => rw [Bool.false_and]
    | true => rw [Content.isPlain_of_isSettable h, Bool.and_true]
  rw [hplain, ← List.filter_filter, filter_listing, List.filter_map, settable]
  refine congrArg (List.map _) (List.filter_congr fun setting _ => ?_)
  exact (Kind.isSettable_plain setting.kind).symm

end Fields

namespace Message

/-- The names of the variables mirror the listed keys.  For the message types of accepted
schemas, every stem and every tree, they are the keys of the fields that the environment can set,
in the order of the listing and in capitals, with the stem in front and underscores for the dots.
Maps and lists of messages have a key and no variable. -/
theorem variables_mirror_keys {raw : RawSchema} {schema : Schema}
    (hschema : Schema.resolve raw = .ok schema) {name : String} {message : Message}
    (hmessage : schema.messageType? name = some message) (stem : String)
    (tree : Tree message.fields) :
    (message.envVars stem).map Variable.name =
      ((message.entries tree).filter fun entry =>
        (message.lookup? entry.1).any fun field => field.content.isSettable).map
          fun entry => stem ++ Name.ofKey entry.1 := by
  have hdistinct := Schema.distinct_of_messageType? hschema hmessage
  have hvalid := Schema.validNames_of_messageType? hschema hmessage
  have hlookup : ∀ site : Site message.fields, message.lookup? site.key = some site.field := by
    intro site
    rw [lookup?, site.splitString_key hvalid, Fields.lookup?_names hdistinct]
  have hnames : (message.envVars stem).map Variable.name =
      (message.fields.settable.map Setting.toSite).map fun site => stem ++ Name.ofKey site.key := by
    rw [envVars, Fields.map_name_envVars, List.map_map]
    exact List.map_congr_left fun setting _ => setting.variableName_eq_key hvalid stem
  rw [hnames, Fields.map_toSite_settable, entries_eq_map hdistinct hvalid, List.filter_map,
    List.map_map]
  refine congrArg (List.map _) (List.filter_congr fun site _ => ?_)
  rw [Function.comp_apply, hlookup]
  rfl

/-- A message with a nested one.  The map has no variable. -/
theorem variables_mirror_keys_sampleMessage :
    Schema.resolve ConfigFile.sampleDeclaration = .ok ConfigFile.sampleSchema ∧
      ConfigFile.sampleSchema.messageType? "Root" = some ConfigFile.sampleMessage ∧
      (ConfigFile.sampleMessage.envVars "APP_").map Variable.name =
        ["APP_SERVICE_NAME", "APP_LIMITS_MAX_COUNT", "APP_LIMITS_TAGS"] := by
  have hschema : Schema.resolve ConfigFile.sampleDeclaration = .ok ConfigFile.sampleSchema := rfl
  have hmessage : ConfigFile.sampleSchema.messageType? "Root" = some ConfigFile.sampleMessage :=
    rfl
  refine ⟨hschema, hmessage, ?_⟩
  rw [variables_mirror_keys hschema hmessage "APP_" (Tree.empty _)]
  rfl

end Message

end LayeredConfig
