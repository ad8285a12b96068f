import LayeredConfig.Agent.Loader
import LayeredConfig.Proofs.Message.Setting

/-!
# The variables that loading reads

The listing of variables names everything in an environment that loading
depends on, and each listed variable takes effect.  What counts of a variable
is what it denotes for the field it is listed for: an empty text and a text
that denotes no value are the same as no variable.
-/

namespace LayeredConfig.Loader

variable {message : Message} {loader : Loader message} {files : FileSystem}

/-- The listing has the variables of the settings, after the one that names the file
where loading asks for it. -/
theorem envVars_eq_append (loader : Loader message) :
    ∃ own, loader.envVars =
        own ++ message.fields.settings.filterMap (·.toVariable? loader.stem) ∧
      own.map Variable.name =
        if loader.file = .environment then [loader.fileVariable] else [] := by
  rw [envVars, Message.envVars, Fields.envVars_eq_filterMap]
  cases hfile : loader.file with
  | none => exact ⟨[], rfl, by simp⟩
  | environment => exact ⟨[_], rfl, by simp⟩
  | path path => exact ⟨[], rfl, by simp⟩

/-- Which file is read depends on one variable at most. -/
theorem filePath?_congr {env : Environment}
    (h : loader.file = .environment →
      loader.env.text? loader.fileVariable = env.text? loader.fileVariable) :
    ({ loader with env := env } : Loader message).filePath? = loader.filePath? := by
  cases hfile : loader.file with
  | none => simp [filePath?, hfile]
  | environment =>
    have htext := h hfile
    simp only [filePath?, hfile, htext]
    rfl
  | path path => simp [filePath?, hfile]

theorem loadOnto_congr {env : Environment}
    (hfile : loader.file = .environment →
      loader.env.text? loader.fileVariable = env.text? loader.fileVariable)
    (hsettings : ∀ setting ∈ message.fields.settings,
      setting.denoted? loader.stem env = setting.denoted? loader.stem loader.env)
    (tree : Tree message.fields) :
    ({ loader with env := env } : Loader message).loadOnto files tree =
      loader.loadOnto files tree := by
  have hpath := filePath?_congr hfile
  simp only [loadOnto, Tree.overlay, hpath]
  rw [Tree.fill_congr hsettings]

/-- Loading depends on the listed variables and on nothing else in the environment: the
listing is complete, two environments in which every listed variable denotes the same load
the same tree with the same events, and a listed variable alone sets its own field. -/
theorem loadOnto_reads_listed (loader : Loader message) (files : FileSystem) :
    (∃ own, (loader.handle files .listEnv).result =
        .ok (.envVars (own ++ message.fields.settings.filterMap (·.toVariable? loader.stem))) ∧
      own.map Variable.name =
        if loader.file = .environment then [loader.fileVariable] else []) ∧
    (∀ env : Environment,
      (loader.file = .environment →
        loader.env.text? loader.fileVariable = env.text? loader.fileVariable) →
      (∀ setting ∈ message.fields.settings, ∀ v, setting.toVariable? loader.stem = some v →
        setting.kind.denoted? env v.name = setting.kind.denoted? loader.env v.name) →
      ∀ tree, ({ loader with env := env } : Loader message).loadOnto files tree =
        loader.loadOnto files tree) ∧
    ∀ (setting : Setting message.fields) (v : Variable) (text : String)
      (slot : setting.kind.Slot), setting.toVariable? loader.stem = some v →
      setting.kind.denoted? (.ofList [(v.name, text)]) v.name = some slot →
      ∃ reached, setting.way.reach?
          (({ stem := loader.stem, env := .ofList [(v.name, text)] } : Loader message).loadOnto
            files (Tree.empty message.fields)).1 = some reached ∧
        reached.slot setting.place = slot := by
  refine ⟨?_, ?_, ?_⟩
  · obtain ⟨own, hvars, hown⟩ := loader.envVars_eq_append
    exact ⟨own, congrArg _ (congrArg _ hvars), hown⟩
  · intro env hfile hlisted
    refine loadOnto_congr hfile ?_
    intro setting hmem
    cases hv : setting.toVariable? loader.stem with
    | none =>
      have htype := Option.map_eq_none_iff.1 hv
      rw [Setting.denoted?, Setting.denoted?, Kind.denoted?_eq_none htype,
        Kind.denoted?_eq_none htype]
    | some v =>
      have hdenoted := hlisted setting hmem v hv
      rwa [Setting.name_eq_of_toVariable? hv] at hdenoted
  · intro setting v text slot hv hdenoted
    rw [Setting.name_eq_of_toVariable? hv] at hdenoted ⊢
    exact Tree.slot_fill_empty hdenoted

/-- The setting of the agent that lists the captured content types. -/
def contentTypes : Setting Agent.config.fields :=
  ⟨_, .into _ Agent.dataCapture (.afterPlain (.afterNested (.nested _ _ _ _))) (.stay _), _, _,
    .afterNested (.afterNested (.afterNested (.afterNested (.afterPlain (.plain _ _ _)))))⟩

/-- To the agent, an empty file name, a text that is no truth value and an unlisted variable
are nothing; a list variable alone sets its list. -/
theorem loadOnto_agent_noise :
    (∀ files tree,
      (Agent.loader (.ofList [("HT_ENABLED", "true")])).loadOnto files tree =
        (Agent.loader (.ofList [("HT_CONFIG_FILE", ""), ("HT_ENABLED", "true"),
          ("HT_REPORTING_SECURE", "maybe"), ("PATH", "/bin")])).loadOnto files tree) ∧
    ∀ files, ∃ reached, contentTypes.way.reach?
        (({ stem := "HT_", env := .ofList [("HT_DATA_CAPTURE_ALLOWED_CONTENT_TYPES", "a, b")] } :
          Loader Agent.config).loadOnto files (Tree.empty Agent.config.fields)).1 = some reached ∧
      reached.slot contentTypes.place = ["a", " b"] := by
  refine ⟨fun files tree => ?_, fun files => ?_⟩
  · have hsame := (loadOnto_reads_listed (Agent.loader (.ofList [("HT_CONFIG_FILE", ""),
      ("HT_ENABLED", "true"), ("HT_REPORTING_SECURE", "maybe"), ("PATH", "/bin")])) files).2.1
    have hdenoted : ∀ setting ∈ Agent.config.fields.settings,
        setting.denoted? "HT_" (.ofList [("HT_ENABLED", "true")]) =
          setting.denoted? "HT_" (.ofList [("HT_CONFIG_FILE", ""), ("HT_ENABLED", "true"),
            ("HT_REPORTING_SECURE", "maybe"), ("PATH", "/bin")]) := by
      decide +kernel
    refine hsame (.ofList [("HT_ENABLED", "true")]) (fun _ => by decide +kernel) ?_ tree
    intro setting hmem v hv
    rw [Setting.name_eq_of_toVariable? hv]
    exact hdenoted setting hmem
  · have hsets := (loadOnto_reads_listed
      ({ stem := "HT_", env := .empty } : Loader Agent.config) files).2.2
    let listed : Variable := ⟨"HT_DATA_CAPTURE_ALLOWED_CONTENT_TYPES", "comma-separated string",
      ["Content types whose bodies are captured. Empty captures all."]⟩
    have hlisted : contentTypes.toVariable? "HT_" = some listed := by
      decide +kernel
    have hdenoted : (Kind.list (.scalar .string)).denoted?
        (.ofList [("HT_DATA_CAPTURE_ALLOWED_CONTENT_TYPES", "a, b")])
        "HT_DATA_CAPTURE_ALLOWED_CONTENT_TYPES" = some ["a", " b"] := by
      decide +kernel
    exact hsets contentTypes listed "a, b" ["a", " b"] hlisted hdenoted

end LayeredConfig.Loader
