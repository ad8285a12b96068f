import LayeredConfig.Message.Listing
import LayeredConfig.Proofs.Message.Precedence

/-!
# Settings and the variables that set them

A setting is a plain field of a message or of one nested in it, together with
the way to it.  The listing of variables and the filling of a tree are two
walks over the same fields; `Fields.settings` is a third one that keeps where
each field is.  The listing is an image of it (`envVars_eq_filterMap`), and
filling reads the variables of these settings and nothing else (`fill_congr`).
What a filled tree holds for a setting comes from its own variable
(`held_fill_congr`), and the filled tree is known by what it holds for all of
them (`fill_eq_of_held`).
-/

namespace LayeredConfig

/-- A plain field with the way to its message. -/
structure Setting (fields : Fields) where
  target : Fields
  way : Way fields target
  label : Label
  kind : Kind
  place : Place target ⟨label, .plain kind⟩

namespace Setting

variable {fields rest sub : Fields}

def later (after : ∀ {field : Field}, Place rest field → Place fields field) :
    Setting rest → Setting fields
  | ⟨_, .stay _, label, kind, place⟩ => ⟨fields, .stay fields, label, kind, after place⟩
  | ⟨target, .into field message here way, label, kind, place⟩ =>
    ⟨target, .into field message (after here) way, label, kind, place⟩

def inside (field message : Label) (here : Place fields ⟨field, .nested ⟨message, sub⟩⟩)
    (setting : Setting sub) : Setting fields :=
  ⟨setting.target, .into field ⟨message, sub⟩ here setting.way, setting.label, setting.kind,
    setting.place⟩

def variableName (setting : Setting fields) (stem : String) : String :=
  setting.way.stem stem ++ setting.label.envSuffix

/-- The variable that sets the field; maps have none. -/
def toVariable? (setting : Setting fields) (stem : String) : Option Variable :=
  setting.kind.variableType?.map fun type =>
    { name := setting.variableName stem, type := type, doc := setting.label.doc }

theorem name_eq_of_toVariable? {setting : Setting fields} {stem : String} {v : Variable}
    (h : setting.toVariable? stem = some v) : v.name = setting.variableName stem := by
  obtain ⟨type, -, rfl⟩ := Option.map_eq_some_iff.1 h
  rfl

@[simp] theorem later_toVariable? (after : ∀ {field : Field}, Place rest field → Place fields field)
    (setting : Setting rest) (stem : String) :
    (later after setting).toVariable? stem = setting.toVariable? stem := by
  obtain ⟨target, way, label, kind, place⟩ := setting
  cases way <;> rfl

@[simp] theorem inside_toVariable? (field message : Label)
    (here : Place fields ⟨field, .nested ⟨message, sub⟩⟩) (setting : Setting sub)
    (stem : String) :
    (inside field message here setting).toVariable? stem =
      setting.toVariable? (stem ++ field.envSuffix ++ "_") := rfl

end Setting

namespace Fields

/-- The settings of a message, in declaration order. -/
def settings : (fields : Fields) → List (Setting fields)
  | nil => []
  | plain field kind rest =>
    ⟨_, .stay _, field, kind, .plain field kind rest⟩ ::
      rest.settings.map (Setting.later .afterPlain)
  | nested field message sub rest =>
    sub.settings.map (Setting.inside field message (.nested field message sub rest)) ++
      rest.settings.map (Setting.later .afterNested)
  | nestedList _ _ _ rest => rest.settings.map (Setting.later .afterNestedList)

theorem filterMap_later {rest fields : Fields}
    (after : ∀ {field : Field}, Place rest field → Place fields field) (stem : String)
    (settings : List (Setting rest)) :
    (settings.map (Setting.later after)).filterMap (·.toVariable? stem) =
      settings.filterMap (·.toVariable? stem) := by
  rw [List.filterMap_map]
  simp only [Function.comp_def, Setting.later_toVariable?]

theorem envVars_eq_filterMap (fields : Fields) (stem : String) :
    fields.envVars stem = fields.settings.filterMap (·.toVariable? stem) := by
  induction fields generalizing stem with
  | nil => rfl
  | plain field kind rest ih =>
    rw [envVars, settings, ih, List.filterMap_cons, filterMap_later]
    cases h : kind.variableType? with
    | none => simp [Setting.toVariable?, h]
    | some type => simp [Setting.toVariable?, Setting.variableName, Way.stem, h]
  | nested field message sub rest ihsub ih =>
    rw [envVars, settings, ihsub, ih, List.filterMap_append, filterMap_later, List.filterMap_map]
    simp [Function.comp_def]
  | nestedList field message sub rest _ ih =>
    rw [envVars, settings, ih, filterMap_later]

theorem mem_settings_of_place {fields : Fields} {label : Label} {kind : Kind}
    (place : Place fields ⟨label, .plain kind⟩) :
    ⟨fields, .stay fields, label, kind, place⟩ ∈ fields.settings := by
  induction fields with
  | nil => cases place
  | plain field kind' rest ih =>
    cases place with
    | plain => simp [settings]
    | afterPlain place =>
      simp only [settings, List.mem_cons, List.mem_map]
      exact Or.inr ⟨_, ih place, rfl⟩
  | nested field message sub rest _ ih =>
    cases place with
    | afterNested place =>
      simp only [settings, List.mem_append, List.mem_map]
      exact Or.inr ⟨_, ih place, rfl⟩
  | nestedList field message sub rest _ ih =>
    cases place with
    | afterNestedList place =>
      simp only [settings, List.mem_map]
      exact ⟨_, ih place, rfl⟩

theorem mem_settings_into {fields : Fields} {field : Label} {message : Message}
    (here : Place fields ⟨field, .nested message⟩) {setting : Setting message.fields}
    (h : setting ∈ message.fields.settings) :
    setting.inside field message.label here ∈ fields.settings := by
  induction fields with
  | nil => cases here
  | plain _ _ rest ih =>
    cases here with
    | afterPlain here =>
      simp only [settings, List.mem_cons, List.mem_map]
      exact Or.inr ⟨_, ih here, rfl⟩
  | nested _ _ sub rest _ ih =>
    simp only [settings, List.mem_append, List.mem_map]
    cases here with
    | nested => exact Or.inl ⟨setting, h, rfl⟩
    | afterNested here => exact Or.inr ⟨_, ih here, rfl⟩
  | nestedList _ _ _ rest _ ih =>
    cases here with
    | afterNestedList here =>
      simp only [settings, List.mem_map]
      exact ⟨_, ih here, rfl⟩

theorem mem_settings {fields : Fields} (setting : Setting fields) :
    setting ∈ fields.settings := by
  obtain ⟨target, way, label, kind, place⟩ := setting
  induction way with
  | stay fields => exact mem_settings_of_place place
  | into field message here way ih => exact mem_settings_into here (ih place)

end Fields

/-! ## What a variable denotes -/

namespace Kind

/-- What a variable denotes for a field: a single value or a list of at least
one value.  Nothing is denoted for a map. -/
def denoted? (env : Environment) (name : String) : (kind : Kind) → Option kind.Slot
  | leaf type => (env.value? name type).map some
  | list type => env.list? name type
  | map _ _ => none

theorem fill_congr {env env' : Environment} {name : String} {kind : Kind}
    (h : kind.denoted? env name = kind.denoted? env' name) (defaults : Option kind.Slot)
    (slot : kind.Slot) : kind.fill env name defaults slot = kind.fill env' name defaults slot := by
  cases kind with
  | leaf type =>
    have hvalue : env.value? name type = env'.value? name type :=
      Option.map_injective (fun _ _ => Option.some.inj) h
    simp [fill, hvalue]
  | list type =>
    have hlist : env.list? name type = env'.list? name type := h
    simp [fill, hlist]
  | map key value => rfl

/-- Where neither the tree nor the defaults set a field, it is filled with what its
variable denotes. -/
theorem eq_of_filled_unset {env : Environment} {name : String} {kind : Kind}
    {slot filled : kind.Slot} (h : kind.denoted? env name = some slot)
    (hfilled : (Content.plain kind).Filled env name kind.unset kind.unset filled) :
    filled = slot := by
  cases kind with
  | leaf type =>
    obtain ⟨value, hvalue, rfl⟩ := Option.map_eq_some_iff.1 h
    simpa [unset, hvalue] using Content.filled_leaf_iff.1 hfilled
  | list type =>
    have hlist : env.list? name type = some slot := h
    have hread := env.getD_list? name type []
    rw [hlist] at hread
    rw [Content.filled_list_iff, unset, firstFilled_cons, ← hread] at hfilled
    exact hfilled
  | map key value => cases h

theorem denoted?_eq_none {kind : Kind} (h : kind.variableType? = none) (env : Environment)
    (name : String) : kind.denoted? env name = none := by
  cases kind with
  | leaf type => cases h
  | list type => cases h
  | map key value => rfl

theorem denoted?_congr {env env' : Environment} {name : String} (kind : Kind)
    (h : env.text? name = env'.text? name) :
    kind.denoted? env name = kind.denoted? env' name := by
  cases kind with
  | leaf type => rw [denoted?, denoted?, Environment.value?, Environment.value?, h]
  | list type => rw [denoted?, denoted?, Environment.list?, Environment.list?, h]
  | map key value => rfl

end Kind

/-- What the variable of a setting denotes. -/
def Setting.denoted? {fields : Fields} (setting : Setting fields) (stem : String)
    (env : Environment) : Option setting.kind.Slot :=
  setting.kind.denoted? env (setting.variableName stem)

theorem Setting.denoted?_later {rest fields : Fields} {env env' : Environment} {stem : String}
    (after : ∀ {field : Field}, Place rest field → Place fields field) (setting : Setting rest) :
    (later after setting).denoted? stem env = (later after setting).denoted? stem env' ↔
      setting.denoted? stem env = setting.denoted? stem env' := by
  obtain ⟨target, way, label, kind, place⟩ := setting
  cases way <;> exact Iff.rfl

namespace Tree

theorem fill_congr {env env' : Environment} {fields : Fields} {stem : String}
    (h : ∀ setting ∈ fields.settings, setting.denoted? stem env = setting.denoted? stem env')
    (defaults : Option (Tree fields)) (tree : Tree fields) :
    fill env fields stem defaults tree = fill env' fields stem defaults tree := by
  induction fields generalizing stem with
  | nil => rfl
  | plain field kind rest ih =>
    obtain ⟨slot, tree⟩ := tree
    simp only [Fields.settings, List.forall_mem_cons, List.forall_mem_map,
      Setting.denoted?_later] at h
    obtain ⟨hfield, hrest⟩ := h
    have hslot := Kind.fill_congr hfield (defaults.map (·.1)) slot
    rw [fill, fill, ih hrest]
    exact Prod.ext hslot rfl
  | nested field message sub rest ihsub ih =>
    obtain ⟨slot, tree⟩ := tree
    simp only [Fields.settings, List.forall_mem_append, List.forall_mem_map,
      Setting.denoted?_later] at h
    obtain ⟨hsub, hrest⟩ := h
    rw [fill, fill, ihsub hsub, ih hrest]
  | nestedList field message sub rest _ ih =>
    obtain ⟨slot, tree⟩ := tree
    simp only [Fields.settings, List.forall_mem_map, Setting.denoted?_later] at h
    rw [fill, fill, ih h]

/-- In an empty tree without defaults, a setting takes what its variable denotes. -/
theorem slot_fill_empty {env : Environment} {fields : Fields} {stem : String}
    {setting : Setting fields} {slot : setting.kind.Slot}
    (h : setting.denoted? stem env = some slot) :
    ∃ reached, setting.way.reach? (fill env fields stem none (empty fields)) = some reached ∧
      reached.slot setting.place = slot := by
  refine ⟨_, reach?_fill env setting.way stem none (empty fields), ?_⟩
  have hfilled := slot_fill env setting.place (setting.way.stem stem) none (empty setting.target)
  rw [slot_empty] at hfilled
  rw [setting.way.getD_reach?_empty]
  exact Kind.eq_of_filled_unset h hfilled

end Tree

/-! ## What a tree holds for a setting -/

namespace Setting

variable {fields rest sub : Fields}

/-- What a tree holds for a setting; the unset value where it stops before. -/
def held (setting : Setting fields) (tree : Tree fields) : setting.kind.Slot :=
  setting.place.held (setting.way.reach? tree)

theorem held_later_iff (after : ∀ {field : Field}, Place rest field → Place fields field)
    {tree tree' : Tree fields} {tail tail' : Tree rest}
    (h : ∀ {field : Field} (place : Place rest field), tree.slot (after place) = tail.slot place)
    (h' : ∀ {field : Field} (place : Place rest field),
      tree'.slot (after place) = tail'.slot place) (setting : Setting rest) :
    (later after setting).held tree = (later after setting).held tree' ↔
      setting.held tail = setting.held tail' := by
  obtain ⟨target, way, label, kind, place⟩ := setting
  cases way with
  | stay =>
    change tree.slot (after place) = tree'.slot (after place) ↔ _
    rw [h, h']
    exact Iff.rfl
  | into field message here way =>
    change place.held ((tree.slot (after here) : Option (Tree message.fields)).bind way.reach?) =
      place.held ((tree'.slot (after here) : Option (Tree message.fields)).bind way.reach?) ↔ _
    rw [h, h']
    exact Iff.rfl

end Setting

namespace Tree

theorem held_fill_congr {env env' : Environment} {fields : Fields} {stem : String}
    {setting : Setting fields} (h : setting.denoted? stem env = setting.denoted? stem env')
    (defaults : Option (Tree fields)) (tree : Tree fields) :
    setting.held (fill env fields stem defaults tree) =
      setting.held (fill env' fields stem defaults tree) := by
  rw [Setting.held, Setting.held, reach?_fill, reach?_fill, Place.held_some, Place.held_some,
    slot_fill_eq, slot_fill_eq]
  exact Kind.fill_congr h _ _

theorem fill_eq_of_held {env env' : Environment} {fields : Fields} {stem : String}
    {defaults : Option (Tree fields)} {tree : Tree fields}
    (h : ∀ setting : Setting fields, setting.held (fill env fields stem defaults tree) =
      setting.held (fill env' fields stem defaults tree)) :
    fill env fields stem defaults tree = fill env' fields stem defaults tree := by
  induction fields generalizing stem with
  | nil => rfl
  | plain field kind rest ih =>
    refine Prod.ext (h ⟨_, .stay _, field, kind, .plain field kind rest⟩) (ih fun setting => ?_)
    exact (Setting.held_later_iff .afterPlain (fun _ => rfl) (fun _ => rfl) setting).1
      (h (setting.later .afterPlain))
  | nested field message sub rest ihsub ih =>
    refine Prod.ext (congrArg some (ihsub fun setting => ?_)) (ih fun setting => ?_)
    · exact h (setting.inside field message (.nested field message sub rest))
    · exact (Setting.held_later_iff .afterNested (fun _ => rfl) (fun _ => rfl) setting).1
        (h (setting.later .afterNested))
  | nestedList field message sub rest _ ih =>
    refine Prod.ext rfl (ih fun setting => ?_)
    exact (Setting.held_later_iff .afterNestedList (fun _ => rfl) (fun _ => rfl) setting).1
      (h (setting.later .afterNestedList))

end Tree

end LayeredConfig
