import LayeredConfig.Proofs.ConfigFile.Overlay
import LayeredConfig.Proofs.Loader.Variables
import LayeredConfig.Proofs.Message.Flat

/-!
# What one variable sets

Filling reads a variable for the settings that it belongs to, and for the choice of
the file where it names the file.  Two environments that differ in this variable
alone make no difference anywhere else (`reads_of_differsAt`).  Where a message is
`Separate`, that is one place at most.  Resolution does not ask for it: joined names
are compared nowhere, and an accepted schema may have two settings with one variable.
-/

namespace LayeredConfig

namespace Environment

/-- The two environments differ in one variable at most. -/
def AgreeExcept (x : String) (env env' : Environment) : Prop :=
  ∀ name, name ≠ x → env.texts.find? name = env'.texts.find? name

theorem AgreeExcept.text?_eq {x name : String} {env env' : Environment}
    (h : AgreeExcept x env env') (hname : name ≠ x) : env.text? name = env'.text? name := by
  rw [text?, text?, h name hname]

theorem agreeExcept_ofList (x text : String) : AgreeExcept x empty (ofList [(x, text)]) :=
  fun _ hname => (Assoc.find?_insert_of_ne hname text []).symm

end Environment

namespace Loader

variable {message : Message} {loader : Loader message} {env : Environment} {x : String}
  {tree : Tree message.fields} {place : Option (Setting message.fields)}

/-- The variable that is read at a place: for the choice of the file, or for a setting. -/
def variableAt (loader : Loader message) : Option (Setting message.fields) → String
  | none => loader.fileVariable
  | some setting => setting.variableName loader.stem

/-- Whether the place reads its variable: maps do not, and the file is chosen by one only
where the loader asks for it. -/
def Reads (loader : Loader message) : Option (Setting message.fields) → Prop
  | none => loader.file = .environment
  | some setting => setting ∈ message.fields.settable

/-- Whether another environment makes a difference at a place: for the choice of the file,
or for what a setting holds in the overlaid tree. -/
def DiffersAt (loader : Loader message) (env : Environment) (tree : Tree message.fields) :
    Option (Setting message.fields) → Prop
  | none => ({ loader with env := env } : Loader message).filePath? ≠ loader.filePath?
  | some setting =>
    setting.held (tree.overlay env loader.stem loader.defaults) ≠
      setting.held (tree.overlay loader.env loader.stem loader.defaults)

/-- A variable makes a difference where it is read, and nowhere else. -/
theorem reads_of_differsAt (henv : loader.env.AgreeExcept x env)
    (h : loader.DiffersAt env tree place) : loader.Reads place ∧ loader.variableAt place = x := by
  cases place with
  | none =>
    -- Were it otherwise, both environments would choose the same file.
    refine by_contra fun hnot => h (filePath?_congr fun hfile => ?_)
    exact henv.text?_eq (not_and.1 hnot hfile)
  | some setting =>
    have hdenoted : setting.denoted? loader.stem loader.env ≠ setting.denoted? loader.stem env :=
      fun hsame => h (Tree.held_fill_congr hsame.symm _ _)
    refine ⟨Fields.mem_settable_iff.2 ?_, by_contra fun hname => ?_⟩
    · rw [Option.isSome_iff_ne_none]
      intro htype
      refine hdenoted ?_
      rw [Setting.denoted?, Setting.denoted?, Kind.denoted?_eq_none htype,
        Kind.denoted?_eq_none htype]
    · exact hdenoted (setting.kind.denoted?_congr (henv.text?_eq hname))

/-- Where the joined names are distinct, two places that read have two variables. -/
theorem eq_of_variableAt_eq (hvalid : message.fields.ValidNames)
    (hseparate : message.fields.Separate) {other : Option (Setting message.fields)}
    (hplace : loader.Reads place) (hother : loader.Reads other)
    (h : loader.variableAt place = loader.variableAt other) : place = other := by
  have hfree : ∀ setting, loader.Reads (some setting) →
      setting.variableName loader.stem ≠ loader.fileVariable := by
    intro setting hmem heq
    have hflat := (setting.variableName_eq_config_file_iff hvalid loader.stem).1 heq
    exact hseparate.free (List.mem_map.2 ⟨setting, hmem, hflat⟩)
  cases place with
  | none =>
    cases other with
    | none => rfl
    | some setting => exact absurd h.symm (hfree setting hother)
  | some setting =>
    cases other with
    | none => exact absurd h (hfree setting hplace)
    | some setting' =>
      have hflat := (setting.variableName_inj hvalid setting' loader.stem).1 h
      exact congrArg some (List.inj_on_of_nodup_map hseparate.distinct hplace hother hflat)

/-- The variables of an accepted message.  Two settings have one variable exactly when their
joined names are equal, the variable of a setting names the file exactly when they read
`config_file`, and the listing is without duplicates exactly when neither happens.  Two
environments that differ in one variable give filled trees and choices of the file that
differ only where this variable is read; where neither happens, at one place at most. -/
theorem shared_variable_iff_flatName {raw : RawSchema} {schema : Schema}
    (hschema : Schema.resolve raw = .ok schema) {name : String} {message : Message}
    (hmessage : schema.messageType? name = some message) :
    (∀ (stem : String) (setting other : Setting message.fields),
      setting.variableName stem = other.variableName stem ↔
        setting.flatName = other.flatName) ∧
    (∀ (stem : String) (setting : Setting message.fields),
      setting.variableName stem = stem ++ "CONFIG_FILE" ↔ setting.flatName = "config_file") ∧
    (∀ stem : String,
      ((message.envVars stem).map Variable.name).Nodup ∧
          stem ++ "CONFIG_FILE" ∉ (message.envVars stem).map Variable.name ↔
        message.fields.Separate) ∧
    ∀ (loader : Loader message) (env : Environment) (x : String),
      loader.env.AgreeExcept x env → ∀ tree : Tree message.fields,
        (∀ place, loader.DiffersAt env tree place →
          loader.Reads place ∧ loader.variableAt place = x) ∧
        ((∀ setting, ¬ loader.DiffersAt env tree (some setting)) →
          tree.overlay env loader.stem loader.defaults =
            tree.overlay loader.env loader.stem loader.defaults) ∧
        (message.fields.Separate → ∀ place other, loader.DiffersAt env tree place →
          loader.DiffersAt env tree other → place = other) := by
  have hvalid := Schema.validNames_of_messageType? hschema hmessage
  refine ⟨fun stem setting other => setting.variableName_inj hvalid other stem,
    fun stem setting => setting.variableName_eq_config_file_iff hvalid stem,
    fun stem => Fields.separate_iff hvalid stem, fun loader env x henv tree => ?_⟩
  refine ⟨fun place hdiffers => reads_of_differsAt henv hdiffers, fun hsame => ?_, ?_⟩
  · exact Tree.fill_eq_of_held fun setting => not_not.1 (hsame setting)
  · intro hseparate place other hplace hother
    obtain ⟨hreads, hx⟩ := reads_of_differsAt henv hplace
    obtain ⟨hreads', hx'⟩ := reads_of_differsAt henv hother
    exact eq_of_variableAt_eq hvalid hseparate hreads hreads' (hx.trans hx'.symm)

def maxCount : Setting ConfigFile.sampleMessage.fields :=
  ⟨_, .into _ _ (.afterPlain (.nested _ _ _ _)) (.stay _), _, _, .plain _ _ _⟩

/-- The variable of the number makes a difference for the number, and for nothing else. -/
theorem shared_variable_sampleMessage :
    Schema.resolve ConfigFile.sampleDeclaration = .ok ConfigFile.sampleSchema ∧
      ConfigFile.sampleSchema.messageType? "Root" = some ConfigFile.sampleMessage ∧
      ∃ loader : Loader ConfigFile.sampleMessage, loader.file = .environment ∧
        loader.DiffersAt (.ofList [("HT_LIMITS_MAX_COUNT", "5")]) (Tree.empty _)
          (some maxCount) ∧
        ∀ place, loader.DiffersAt (.ofList [("HT_LIMITS_MAX_COUNT", "5")]) (Tree.empty _) place →
          place = some maxCount := by
  have hschema : Schema.resolve ConfigFile.sampleDeclaration = .ok ConfigFile.sampleSchema := rfl
  have hmessage : ConfigFile.sampleSchema.messageType? "Root" =
      some ConfigFile.sampleMessage := rfl
  have hseparate : ConfigFile.sampleMessage.fields.Separate :=
    ⟨by decide +kernel, by decide +kernel⟩
  let loader : Loader ConfigFile.sampleMessage := { file := .environment, env := .empty }
  have hdiffers : loader.DiffersAt (.ofList [("HT_LIMITS_MAX_COUNT", "5")]) (Tree.empty _)
      (some maxCount) := by
    rw [DiffersAt]
    decide +kernel
  obtain ⟨-, -, -, heffect⟩ := shared_variable_iff_flatName hschema hmessage
  obtain ⟨-, -, hone⟩ := heffect loader _ "HT_LIMITS_MAX_COUNT"
    (Environment.agreeExcept_ofList "HT_LIMITS_MAX_COUNT" "5") (Tree.empty _)
  exact ⟨hschema, hmessage, loader, rfl, hdiffers,
    fun place hplace => hone hseparate place _ hplace hdiffers⟩

/-- A declaration in which two ways read alike, and a field reads like the variable for
the file. -/
def overlappingDeclaration : RawSchema where
  messages := [
    { name := "A", fields := [⟨"b_c", "string", ""⟩] },
    { name := "B", fields := [⟨"c", "string", ""⟩] },
    { name := "Root", fields := [⟨"a", "A", ""⟩, ⟨"a_b", "B", ""⟩,
      ⟨"config_file", "string", ""⟩] }]

def overlappingSchema : Schema where
  enums := []
  messages := [
    ⟨"A", "", [⟨"b_c", .plain (.leaf (.scalar .string)), ""⟩]⟩,
    ⟨"B", "", [⟨"c", .plain (.leaf (.scalar .string)), ""⟩]⟩,
    ⟨"Root", "", [⟨"a", .message "A", ""⟩, ⟨"a_b", .message "B", ""⟩,
      ⟨"config_file", .plain (.leaf (.scalar .string)), ""⟩]⟩]

def overlappingMessage : Message where
  label := ⟨"Root", []⟩
  fields :=
    .nested ⟨"a", []⟩ ⟨"A", []⟩ (.plain ⟨"b_c", []⟩ (.leaf (.scalar .string)) .nil) <|
    .nested ⟨"a_b", []⟩ ⟨"B", []⟩ (.plain ⟨"c", []⟩ (.leaf (.scalar .string)) .nil) <|
    .plain ⟨"config_file", []⟩ (.leaf (.scalar .string)) .nil

def firstText : Setting overlappingMessage.fields :=
  ⟨_, .into _ _ (.nested _ _ _ _) (.stay _), _, _, .plain _ _ _⟩

def secondText : Setting overlappingMessage.fields :=
  ⟨_, .into _ _ (.afterNested (.nested _ _ _ _)) (.stay _), _, _, .plain _ _ _⟩

/-- The field that reads like the variable for the file. -/
def fileText : Setting overlappingMessage.fields :=
  ⟨_, .stay _, _, _, .afterNested (.afterNested (.plain _ _ _))⟩

/-- The declaration is accepted.  Its listing has one name twice, and the name of the
variable for the file.  The former sets two texts, the latter a text and the file. -/
theorem shared_variable_overlappingMessage :
    Schema.resolve overlappingDeclaration = .ok overlappingSchema ∧
      overlappingSchema.messageType? "Root" = some overlappingMessage ∧
      (overlappingMessage.envVars "HT_").map Variable.name =
        ["HT_A_B_C", "HT_A_B_C", "HT_" ++ "CONFIG_FILE"] ∧
      ∃ loader : Loader overlappingMessage, loader.file = .environment ∧
        (loader.env.AgreeExcept "HT_A_B_C" (.ofList [("HT_A_B_C", "x")]) ∧
          firstText ≠ secondText ∧
          loader.DiffersAt (.ofList [("HT_A_B_C", "x")]) (Tree.empty _) (some firstText) ∧
          loader.DiffersAt (.ofList [("HT_A_B_C", "x")]) (Tree.empty _) (some secondText)) ∧
        loader.env.AgreeExcept "HT_CONFIG_FILE" (.ofList [("HT_CONFIG_FILE", "c.json")]) ∧
          loader.DiffersAt (.ofList [("HT_CONFIG_FILE", "c.json")]) (Tree.empty _) none ∧
          loader.DiffersAt (.ofList [("HT_CONFIG_FILE", "c.json")]) (Tree.empty _)
            (some fileText) := by
  let loader : Loader overlappingMessage := { file := .environment, env := .empty }
  refine ⟨rfl, rfl, by decide +kernel, loader, rfl,
    ⟨Environment.agreeExcept_ofList _ _, ?_, ?_, ?_⟩, Environment.agreeExcept_ofList _ _, ?_, ?_⟩
  · exact fun h => absurd (congrArg (·.label.name) h) (by decide)
  all_goals
    rw [DiffersAt]
    decide +kernel

end Loader

end LayeredConfig
