import LayeredConfig.Message.Overlay
import LayeredConfig.Proofs.Message.Place
import LayeredConfig.Proofs.Message.Reading
import LayeredConfig.Proofs.SortedMap
import LayeredConfig.Specimen

/-!
# Which tier wins

Filling a tree is one law at every depth: what the tree holds wins over the
variable, and the variable over the defaults.  `Content.Filled` states it for
one field of each kind.  `Tree.overlay_precedence` carries it along a way: every
message on the way is there after filling, the stem of the variables grows by
the suffixes of the fields passed, and a tier whose tree stops early counts as
unset from there on.
-/

namespace LayeredConfig

/-- The first list that is not empty; the empty list if there is none. -/
def firstFilled {α : Type} (lists : List (List α)) : List α :=
  (lists.find? fun list => !list.isEmpty).getD []

theorem firstFilled_cons {α : Type} (list : List α) (lists : List (List α)) :
    firstFilled (list :: lists) = if list.isEmpty then firstFilled lists else list := by
  cases list with
  | nil => rfl
  | cons a list => rfl

theorem firstFilled_of_ne_nil {α : Type} {list : List α} (h : list ≠ []) (lists : List (List α)) :
    firstFilled (list :: lists) = list := by
  rw [firstFilled_cons, if_neg fun hempty => h (List.isEmpty_iff.1 hempty)]

@[simp] theorem firstFilled_singleton {α : Type} (list : List α) : firstFilled [list] = list := by
  cases list with
  | nil => rfl
  | cons a list => rfl

namespace Content

/-- What `filled` has to be for a field, given the name of its variable and
what the tree (`own`) and the defaults held. -/
def Filled (env : Environment) (name : String) :
    (content : Content) → (own defaults filled : content.Slot) → Prop
  | plain (.leaf type), own, defaults, filled =>
    ∃ read, env.ReadsAs name type read ∧ filled = own.or (read.or defaults)
  | plain (.list type), own, defaults, filled =>
    ∃ read, env.ReadsAsList name type read ∧ filled = firstFilled [own, read, defaults]
  | plain (.map _ _), own, defaults, filled =>
    ∀ key, filled.find? key = (own.find? key).or (defaults.find? key)
  | nested _, _, _, filled => filled.isSome
  | nestedList _, own, defaults, filled => filled = firstFilled [own, defaults]

section

variable {env : Environment} {name : String} {type : ValueType}

theorem filled_leaf_iff {own defaults filled : Option type.Val} :
    (plain (.leaf type)).Filled env name own defaults filled ↔
      filled = own.or ((env.value? name type).or defaults) := by
  simp only [Filled, Environment.readsAs_iff, exists_eq_left]

theorem filled_list_iff {own defaults filled : List type.Val} :
    (plain (.list type)).Filled env name own defaults filled ↔
      filled = firstFilled [own, ((env.text? name).map type.listOfText).getD [], defaults] := by
  simp only [Filled, Environment.readsAsList_iff, exists_eq_left]

end

end Content

/-- A list variable takes effect where it denotes at least one value. -/
theorem Environment.getD_list? (env : Environment) (name : String) (type : ValueType)
    (defaults : List type.Val) :
    (env.list? name type).getD defaults =
      firstFilled [((env.text? name).map type.listOfText).getD [], defaults] := by
  rw [firstFilled_cons, firstFilled_singleton, list?]
  cases env.text? name with
  | none => rfl
  | some text =>
    by_cases h : (type.listOfText text).isEmpty = true
    · simp [Option.filter, h]
    · simp [Option.filter, h]

theorem Kind.filled_fill (env : Environment) (name : String) (kind : Kind)
    (defaults : Option kind.Slot) (own : kind.Slot) :
    (Content.plain kind).Filled env name own (defaults.getD kind.unset)
      (kind.fill env name defaults own) := by
  cases kind with
  | leaf type => exact Content.filled_leaf_iff.2 rfl
  | list type =>
    have hread := env.getD_list? name type (defaults.getD [])
    refine Content.filled_list_iff.2 ?_
    rw [fill, hread, ← firstFilled_cons]
    rfl
  | map key value =>
    intro k
    cases defaults with
    | none => exact (Option.or_none).symm
    | some entries => exact own.find?_fillFrom entries k

/-- Fills one field, given the name of its variable and what the defaults hold.  A nested
message is created if it is absent, and filled with a stem of its own. -/
def Content.fill (env : Environment) (name : String) :
    (content : Content) → Option content.Slot → content.Slot → content.Slot
  | plain kind, defaults, slot => kind.fill env name defaults slot
  | nested message, defaults, slot =>
    some (Tree.fill env message.fields (name ++ "_") defaults.join
      (slot.getD (Tree.empty message.fields)))
  | nestedList _, defaults, slot => if slot.isEmpty then defaults.getD [] else slot

/-- A field is filled by the first tier that sets it. -/
theorem Content.filled_fill (env : Environment) (name : String) (content : Content)
    (defaults : Option content.Slot) (own : content.Slot) :
    content.Filled env name own (defaults.getD content.unset)
      (content.fill env name defaults own) := by
  cases content with
  | plain kind => exact kind.filled_fill env name defaults own
  | nested message => rfl
  | nestedList message =>
    rw [Filled, fill, firstFilled_cons, firstFilled_singleton]
    rfl

namespace Tree

theorem slot_fill_eq (env : Environment) : ∀ {fields : Fields} {field : Field}
    (place : Place fields field) (stem : String) (defaults : Option (Tree fields))
    (tree : Tree fields),
    (fill env fields stem defaults tree).slot place =
      field.content.fill env (stem ++ field.label.envSuffix) (defaults.map (·.slot place))
        (tree.slot place)
  | _, _, .plain _ _ _, _, _, _ => rfl
  | _, _, .nested _ _ _ _, _, defaults, _ => by cases defaults <;> rfl
  | _, _, .nestedList _ _ _ _, _, _, _ => rfl
  | _, _, .afterPlain place, stem, defaults, tree => by
    have h := slot_fill_eq env place stem (defaults.map (·.2)) tree.2
    rw [Option.map_map] at h
    exact h
  | _, _, .afterNested place, stem, defaults, tree => by
    have h := slot_fill_eq env place stem (defaults.map (·.2)) tree.2
    rw [Option.map_map] at h
    exact h
  | _, _, .afterNestedList place, stem, defaults, tree => by
    have h := slot_fill_eq env place stem (defaults.map (·.2)) tree.2
    rw [Option.map_map] at h
    exact h

theorem slot_fill (env : Environment) {fields : Fields} {field : Field}
    (place : Place fields field) (stem : String) (defaults : Option (Tree fields))
    (tree : Tree fields) :
    field.content.Filled env (stem ++ field.label.envSuffix) (tree.slot place)
      (place.held defaults) ((fill env fields stem defaults tree).slot place) := by
  have h := field.content.filled_fill env (stem ++ field.label.envSuffix)
    (defaults.map (·.slot place)) (tree.slot place)
  rw [slot_fill_eq]
  cases defaults <;> exact h

/-- A nested message is filled with the longer stem, from nothing where the
tree has none. -/
theorem slot_fill_nested (env : Environment) {fields : Fields} {label : Label} {message : Message}
    (place : Place fields ⟨label, .nested message⟩) (stem : String)
    (defaults : Option (Tree fields)) (tree : Tree fields) :
    (fill env fields stem defaults tree).slot place =
      some (fill env message.fields (stem ++ label.envSuffix ++ "_")
        (defaults.bind fun defaults => defaults.slot place)
        ((tree.slot place : Option (Tree message.fields)).getD (empty message.fields))) := by
  rw [slot_fill_eq]
  cases defaults <;> rfl

/-- Filling, seen at the end of a way: every message on it is there, and the
message at the end is filled with the stem and the tiers that belong to it. -/
theorem reach?_fill (env : Environment) {fields target : Fields} (way : Way fields target)
    (stem : String) (defaults : Option (Tree fields)) (tree : Tree fields) :
    way.reach? (fill env fields stem defaults tree) =
      some (fill env target (way.stem stem) (defaults.bind way.reach?)
        ((way.reach? tree).getD (empty target))) := by
  induction way generalizing stem with
  | stay fields =>
    rw [Way.reach?_stay, Way.reach?_stay]
    cases defaults with
    | none => rfl
    | some defaults => rfl
  | into label message place way ih =>
    rw [Way.reach?_into, slot_fill_nested]
    refine (ih _ _ _).trans ?_
    rw [Option.bind_assoc]
    have htree : (way.reach? ((tree.slot place : Option (Tree message.fields)).getD
        (empty message.fields))).getD (empty _) =
        (((Way.into label message place way).reach? tree).getD (empty _)) := by
      rw [Way.reach?_into]
      cases (tree.slot place : Option (Tree message.fields)) with
      | none => exact way.getD_reach?_empty
      | some sub => rfl
    rw [htree]
    rfl

/-- The law of filling.  For every way through nested messages, all of them are
there afterwards; and every field of the message at its end holds what the tree
held, else what its variable denotes, else what the defaults held. -/
theorem overlay_precedence (message : Message) (tree : Tree message.fields) (env : Environment)
    (stem : String) (defaults : Option (Tree message.fields)) {target : Fields}
    (way : Way message.fields target) :
    ∃ reached, way.reach? (tree.overlay env stem defaults) = some reached ∧
      ∀ (field : Field) (place : Place target field),
        field.content.Filled env (way.stem stem ++ field.label.envSuffix)
          (place.held (way.reach? tree)) (place.held (defaults.bind way.reach?))
          (reached.slot place) := by
  refine ⟨_, reach?_fill env way stem defaults tree, fun field place => ?_⟩
  have h := slot_fill env place (way.stem stem) (defaults.bind way.reach?)
    ((way.reach? tree).getD (empty target))
  rw [place.slot_getD_empty] at h
  exact h

def limitsMessage : Message where
  label := ⟨"Limits", []⟩
  fields :=
    .plain ⟨"ports", []⟩ (.list (.scalar .int32)) <|
    .plain ⟨"max_count", []⟩ (.leaf (.scalar .int32)) <|
    .plain ⟨"modes", []⟩ (.list (.enum Specimen.mode)) .nil

/-- A message with lists of several types, its own and nested ones. -/
def gatewayMessage : Message where
  label := ⟨"Gateway", []⟩
  fields :=
    .plain ⟨"names", []⟩ (.list (.scalar .string)) <|
    .plain ⟨"flags", []⟩ (.list (.scalar .bool)) <|
    .nested ⟨"limits", []⟩ limitsMessage.label limitsMessage.fields .nil

def gatewayTree : Tree gatewayMessage.fields := ([], [true], none, ())

def gatewayDefaults : Tree gatewayMessage.fields :=
  (["unnamed"], [], some ([], some 3, [⟨1, by decide⟩], ()), ())

def gatewayEnvironment : Environment :=
  .ofList [("HT_NAMES", " a,,b"), ("HT_FLAGS", "false"), ("HT_LIMITS_PORTS", "7,x,\t+08 "),
    ("HT_LIMITS_MAX_COUNT", "-012"), ("HT_LIMITS_MODES", "none")]

theorem readsAsList_names :
    gatewayEnvironment.ReadsAsList "HT_NAMES" (.scalar .string) [" a", "", "b"] := by
  have htext : gatewayEnvironment.HasText "HT_NAMES" " a,,b" := ⟨by decide +kernel, by decide⟩
  exact Or.inl ⟨_, htext, by decide, by decide, by decide +kernel⟩

theorem readsAsList_ports :
    gatewayEnvironment.ReadsAsList "HT_LIMITS_PORTS" (.scalar .int32) [7, 8] := by
  have htext : gatewayEnvironment.HasText "HT_LIMITS_PORTS" "7,x,\t+08 " :=
    ⟨by decide +kernel, by decide⟩
  have hcut : Cut "7,x,\t+08 " ["7", "x", "\t+08 "] := ⟨by decide, by decide, by decide +kernel⟩
  have hseven : (ValueType.scalar .int32).Spelled "7" (7 : Int32) :=
    .unsigned (readDigits?_eq_some_iff.1 (by decide))
  have height : (ValueType.scalar .int32).Spelled "+08" (8 : Int32) :=
    .plus (readDigits?_eq_some_iff.1 (by decide))
  have hlast : Trimmed "\t+08 " "+08" := trimmed_iff.2 (by decide)
  refine Or.inl ⟨_, htext, _, hcut, .value (trimmed_iff.2 ?_) hseven (.none (trimmed_iff.2 rfl) ?_
    (.value hlast height .nil))⟩
  · decide
  · exact ValueType.ofText?_eq_none_iff.1 (by decide)

theorem readsAs_max_count :
    gatewayEnvironment.ReadsAs "HT_LIMITS_MAX_COUNT" (.scalar .int32) (some (-12 : Int32)) :=
  Environment.readsAs_iff.2 (by decide +kernel)

theorem readsAsList_modes :
    gatewayEnvironment.ReadsAsList "HT_LIMITS_MODES" (.enum Specimen.mode) [] :=
  Environment.readsAsList_iff.2 (by decide +kernel)

/-- The lists of variables are read at both levels, as they are or element by element.  Flags
are set already, and the modes come from the defaults, as their variable spells none. -/
theorem overlay_precedence_gateway :
    gatewayTree.overlay gatewayEnvironment "HT_" (some gatewayDefaults) =
      ([" a", "", "b"], [true], some ([7, 8], some (-12), [⟨1, by decide⟩], ()), ()) := by
  have hlaw := @overlay_precedence gatewayMessage gatewayTree gatewayEnvironment "HT_"
    (some gatewayDefaults)
  obtain ⟨⟨names, flags, limits, _⟩, hroot, hown⟩ := hlaw (.stay _)
  obtain ⟨⟨ports, count, modes, _⟩, hlimits, hnested⟩ :=
    hlaw (.into _ limitsMessage (.afterPlain (.afterPlain (.nested _ _ _ _))) (.stay _))
  obtain ⟨_, hread, hnames⟩ := hown _ (.plain _ _ _)
  obtain rfl := hread.unique readsAsList_names
  obtain ⟨_, -, hflags⟩ := hown _ (.afterPlain (.plain _ _ _))
  obtain ⟨_, hread, hports⟩ := hnested _ (.plain _ _ _)
  obtain rfl := hread.unique readsAsList_ports
  obtain ⟨_, hread, hcount⟩ := hnested _ (.afterPlain (.plain _ _ _))
  obtain rfl := hread.unique readsAs_max_count
  obtain ⟨_, hread, hmodes⟩ := hnested _ (.afterPlain (.afterPlain (.plain _ _ _)))
  obtain rfl := hread.unique readsAsList_modes
  obtain rfl : names = [" a", "", "b"] := hnames
  obtain rfl : flags = [true] := hflags
  obtain rfl : ports = [7, 8] := hports
  obtain rfl : count = some (-12) := hcount
  obtain rfl : modes = [⟨1, by decide⟩] := hmodes
  have hfilled := Option.some.inj hroot
  rw [hfilled] at hlimits ⊢
  obtain rfl : limits = some ([7, 8], some (-12), [⟨1, by decide⟩], ()) := by
    cases limits with
    | none => exact nomatch hlimits
    | some limits => exact hlimits
  rfl

end Tree

end LayeredConfig
