import LayeredConfig.Proofs.Message.Setting
import LayeredConfig.Proofs.Schema.Distinct
import LayeredConfig.Proofs.Schema.Spelling
import LayeredConfig.Proofs.Text.Split

/-!
# Names of variables, run together

The name of a variable is the stem, followed by the names of the fields on the
way to its setting, in capitals and joined by underscores.  As underscores stand
inside names as well, what the capitals keep is the joined text (`flatName`) and
not where one name ends.  Two settings have one variable exactly when their joined
texts are equal (`variableName_inj`), and the listing of a message is without
duplicates exactly when they are distinct (`separate_iff`).
-/

namespace LayeredConfig

namespace Fields

def ValidNames : Fields → Prop
  | nil => True
  | plain field _ rest => Name.isFieldName field.name = true ∧ rest.ValidNames
  | nested field _ sub rest | nestedList field _ sub rest =>
    Name.isFieldName field.name = true ∧ sub.ValidNames ∧ rest.ValidNames

end Fields

namespace Schema

theorem validNames_of_unfoldFields {message? : String → Option Message} {decls : List FieldDecl}
    (hsub : ∀ name m, message? name = some m → m.fields.ValidNames)
    (hvalid : ∀ decl ∈ decls, Name.isFieldName decl.name = true) {fields : Fields}
    (h : unfoldFields message? decls = some fields) : fields.ValidNames := by
  induction decls generalizing fields with
  | nil =>
    obtain rfl := Option.some.inj h
    trivial
  | cons decl decls ih =>
    obtain ⟨hdecl, hdecls⟩ := List.forall_mem_cons.1 hvalid
    obtain ⟨rest, hrest, ⟨kind, rfl⟩ | ⟨name, m, hm, rfl | rfl⟩⟩ := unfoldFields_cons_eq_some h
    · exact ⟨hdecl, ih hdecls hrest⟩
    · exact ⟨hdecl, hsub name m hm, ih hdecls hrest⟩
    · exact ⟨hdecl, hsub name m hm, ih hdecls hrest⟩

theorem validNames_of_messageType? {raw : RawSchema} {schema : Schema}
    (h : resolve raw = .ok schema) {name : String} {message : Message}
    (hmessage : schema.messageType? name = some message) : message.fields.ValidNames :=
  forall_messageType? (P := Fields.ValidNames) (fun _ hdecl _ hsub _ hfields =>
    validNames_of_unfoldFields hsub (wellNamed_of_resolve h hdecl).valid hfields) hmessage

end Schema

def Content.ValidNames : Content → Prop
  | plain _ => True
  | nested message | nestedList message => message.fields.ValidNames

theorem Place.validNames {fields : Fields} {field : Field} (place : Place fields field)
    (h : fields.ValidNames) :
    Name.isFieldName field.label.name = true ∧ field.content.ValidNames := by
  induction place with
  | plain => exact ⟨h.1, trivial⟩
  | nested | nestedList => exact ⟨h.1, h.2.1⟩
  | afterPlain _ ih => exact ih h.2
  | afterNested _ ih | afterNestedList _ ih => exact ih h.2.2

/-! ## Joined names -/

def Name.capitals (text : String) : String := String.ofList (text.toList.map Char.toUpper)

theorem Name.capitals_ofList_append (cs more : List Char) :
    capitals (String.ofList (cs ++ more)) =
      capitals (String.ofList cs) ++ capitals (String.ofList more) := by
  simp [capitals]

theorem Label.envSuffix_eq {label : Label} (h : Name.isFieldName label.name = true) :
    label.envSuffix = Name.capitals label.name := by
  rw [Label.envSuffix, Name.toEnvSuffix, Name.envSuffix_of_small (Name.small_of_isFieldName h)]
  rfl

theorem Name.capitals_inj {text other : String} (h : Name.Small text.toList)
    (h' : Name.Small other.toList) :
    Name.capitals text = Name.capitals other ↔ text = other := by
  rw [Name.capitals, Name.capitals, String.ofList_inj, Name.map_toUpper_inj h h', String.toList_inj]

def Way.names : {fields target : Fields} → Way fields target → List String
  | _, _, stay _ => []
  | _, _, into field _ _ way => field.name :: way.names

namespace Setting

variable {fields : Fields}

def names (setting : Setting fields) : List String := setting.way.names ++ [setting.label.name]

/-- The names joined by underscores. -/
def flatName (setting : Setting fields) : String :=
  String.ofList (Text.join ['_'] (setting.names.map String.toList))

end Setting

/-- What a way and a field at its end add to the stem. -/
theorem Way.stem_append_envSuffix {fields target : Fields} (way : Way fields target)
    (h : fields.ValidNames) {field : Field} (place : Place target field) (start : String) :
    way.stem start ++ field.label.envSuffix = start ++ Name.capitals
      (String.ofList (Text.join ['_'] ((way.names ++ [field.label.name]).map String.toList))) ∧
    Name.Small (Text.join ['_'] ((way.names ++ [field.label.name]).map String.toList)) := by
  induction way generalizing start with
  | stay fields =>
    have hname := (place.validNames h).1
    refine ⟨?_, Name.small_of_isFieldName hname⟩
    rw [Label.envSuffix_eq hname]
    change _ = start ++ Name.capitals (String.ofList field.label.name.toList)
    rw [String.ofList_toList]
    rfl
  | into label message here way ih =>
    obtain ⟨hname, hsub⟩ := here.validNames h
    obtain ⟨ih, hsmall⟩ := ih hsub place (start ++ label.envSuffix ++ "_")
    rw [Way.names, List.cons_append, List.map_cons, Text.join_cons_of_ne_nil (by simp)]
    refine ⟨?_, ?_⟩
    · rw [Way.stem, ih, Label.envSuffix_eq hname, Name.capitals_ofList_append,
        Name.capitals_ofList_append, String.ofList_toList]
      simp only [String.append_assoc]
      rfl
    · rw [Name.small_append_iff, Name.small_append_iff]
      exact ⟨⟨Name.small_of_isFieldName hname, by simp [Name.Small]⟩, hsmall⟩

namespace Setting

variable {fields : Fields}

theorem variableName_eq (h : fields.ValidNames) (setting : Setting fields) (stem : String) :
    setting.variableName stem = stem ++ Name.capitals setting.flatName :=
  (setting.way.stem_append_envSuffix h setting.place stem).1

theorem small_flatName (h : fields.ValidNames) (setting : Setting fields) :
    Name.Small setting.flatName.toList := by
  rw [flatName, String.toList_ofList]
  exact (setting.way.stem_append_envSuffix h setting.place "").2

/-- A variable is known by the joined names. -/
theorem variableName_eq_iff (h : fields.ValidNames) (setting : Setting fields) (stem : String)
    {text : String} (htext : Name.Small text.toList) :
    setting.variableName stem = stem ++ Name.capitals text ↔ setting.flatName = text := by
  rw [variableName_eq h, String.append_right_inj,
    Name.capitals_inj (setting.small_flatName h) htext]

theorem variableName_inj (h : fields.ValidNames) (setting other : Setting fields)
    (stem : String) :
    setting.variableName stem = other.variableName stem ↔ setting.flatName = other.flatName := by
  rw [other.variableName_eq h, setting.variableName_eq_iff h stem (other.small_flatName h)]

theorem variableName_eq_config_file_iff (h : fields.ValidNames) (setting : Setting fields)
    (stem : String) :
    setting.variableName stem = stem ++ "CONFIG_FILE" ↔ setting.flatName = "config_file" := by
  have hcapitals : Name.capitals "config_file" = "CONFIG_FILE" := by decide
  have hsmall : Name.Small "config_file".toList := Name.small_of_isFieldName (by decide)
  rw [← hcapitals, setting.variableName_eq_iff h stem hsmall]

end Setting

/-! ## Listings without duplicates -/

namespace Fields

/-- The settings that have a variable. -/
def settable (fields : Fields) : List (Setting fields) :=
  fields.settings.filter fun setting => setting.kind.variableType?.isSome

theorem mem_settable_iff {fields : Fields} {setting : Setting fields} :
    setting ∈ fields.settable ↔ setting.kind.variableType?.isSome = true := by
  rw [settable, List.mem_filter]
  exact and_iff_right (mem_settings setting)

theorem map_name_envVars (fields : Fields) (stem : String) :
    (fields.envVars stem).map Variable.name = fields.settable.map (·.variableName stem) := by
  rw [envVars_eq_filterMap, settable]
  induction fields.settings with
  | nil => rfl
  | cons setting settings ih =>
    rw [List.filterMap_cons, List.filter_cons, Setting.toVariable?]
    cases setting.kind.variableType? with
    | none => exact ih
    | some type => exact congrArg (_ :: ·) ih

/-- The joined names of the settings are distinct, and none of them is the one that
the variable for the file has. -/
structure Separate (fields : Fields) : Prop where
  distinct : (fields.settable.map Setting.flatName).Nodup
  free : "config_file" ∉ fields.settable.map Setting.flatName

/-- The listing is without duplicates, the variable for the file included, exactly
when the joined names are distinct. -/
theorem separate_iff {fields : Fields} (h : fields.ValidNames) (stem : String) :
    ((fields.envVars stem).map Variable.name).Nodup ∧
        stem ++ "CONFIG_FILE" ∉ (fields.envVars stem).map Variable.name ↔
      fields.Separate := by
  have hdistinct : (fields.settable.map (·.variableName stem)).Nodup ↔
      (fields.settable.map Setting.flatName).Nodup := by
    simp only [List.Nodup, List.pairwise_map, ne_eq, Setting.variableName_inj h]
  have hfree : stem ++ "CONFIG_FILE" ∈ fields.settable.map (·.variableName stem) ↔
      "config_file" ∈ fields.settable.map Setting.flatName := by
    simp only [List.mem_map, Setting.variableName_eq_config_file_iff h]
  rw [map_name_envVars, hdistinct, hfree]
  exact ⟨fun ⟨hnodup, hmem⟩ => ⟨hnodup, hmem⟩, fun hseparate => ⟨hseparate.1, hseparate.2⟩⟩

end Fields

end LayeredConfig
