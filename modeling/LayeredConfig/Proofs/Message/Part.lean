import LayeredConfig.Agent.Config
import LayeredConfig.Proofs.Message.Frozen

/-!
# Overlays of parts of a message

A `Part` of a message is what can be overlaid without the rest: the whole of it,
one of its fields, or a part of a message nested in it, which is created if it is
absent.  The whole overlay takes in what a part did before it
(`Tree.overlay_overlayPart`) and leaves nothing for a part to do after it
(`Tree.overlayPart_overlay`), and two parts can change places
(`Tree.overlayPart_comm`).  So the order of a run of parts does not matter, and a
run that covers every field is the whole overlay (`Tree.overlayParts_unordered`).
-/

namespace LayeredConfig

/-! ## Changing one field -/

namespace Tree

variable {fields : Fields} {field other : Field}

def modify : {fields : Fields} → {field : Field} → Place fields field →
    (field.content.Slot → field.content.Slot) → Tree fields → Tree fields
  | _, _, .plain _ _ _, change, tree => (change tree.1, tree.2)
  | _, _, .nested _ _ _ _, change, tree => (change tree.1, tree.2)
  | _, _, .nestedList _ _ _ _, change, tree => (change tree.1, tree.2)
  | _, _, .afterPlain place, change, tree => (tree.1, modify place change tree.2)
  | _, _, .afterNested place, change, tree => (tree.1, modify place change tree.2)
  | _, _, .afterNestedList place, change, tree => (tree.1, modify place change tree.2)

@[simp] theorem slot_modify_self (place : Place fields field)
    (change : field.content.Slot → field.content.Slot) (tree : Tree fields) :
    (tree.modify place change).slot place = change (tree.slot place) := by
  induction place with
  | plain | nested | nestedList => rfl
  | afterPlain _ ih | afterNested _ ih | afterNestedList _ ih => exact ih change tree.2

theorem slot_modify_of_ne {place : Place fields field} {elsewhere : Place fields other}
    (h : (⟨other, elsewhere⟩ : (field : Field) × Place fields field) ≠ ⟨field, place⟩)
    (change : field.content.Slot → field.content.Slot) (tree : Tree fields) :
    (tree.modify place change).slot elsewhere = tree.slot elsewhere := by
  induction place with
  | plain =>
    cases elsewhere with
    | plain => exact absurd rfl h
    | afterPlain => rfl
  | nested =>
    cases elsewhere with
    | nested => exact absurd rfl h
    | afterNested => rfl
  | nestedList =>
    cases elsewhere with
    | nestedList => exact absurd rfl h
    | afterNestedList => rfl
  | afterPlain place ih =>
    cases elsewhere with
    | plain => rfl
    | afterPlain elsewhere => exact ih (fun heq => h (by cases heq; rfl)) change tree.2
  | afterNested place ih =>
    cases elsewhere with
    | nested => rfl
    | afterNested elsewhere => exact ih (fun heq => h (by cases heq; rfl)) change tree.2
  | afterNestedList place ih =>
    cases elsewhere with
    | nestedList => rfl
    | afterNestedList elsewhere => exact ih (fun heq => h (by cases heq; rfl)) change tree.2

/-- A tree is known by what it holds at the places of its own fields. -/
theorem ext_slot {tree tree' : Tree fields}
    (h : ∀ (field : Field) (place : Place fields field), tree.slot place = tree'.slot place) :
    tree = tree' := by
  induction fields with
  | nil => rfl
  | plain label kind rest ih =>
    exact Prod.ext (h _ (.plain label kind rest)) (ih fun _ place => h _ (.afterPlain place))
  | nested label message sub rest _ ih =>
    exact Prod.ext (h _ (.nested label message sub rest))
      (ih fun _ place => h _ (.afterNested place))
  | nestedList label message sub rest _ ih =>
    exact Prod.ext (h _ (.nestedList label message sub rest))
      (ih fun _ place => h _ (.afterNestedList place))

theorem modify_modify (place : Place fields field)
    (change again : field.content.Slot → field.content.Slot) (tree : Tree fields) :
    (tree.modify place change).modify place again = tree.modify place (again ∘ change) := by
  induction place with
  | plain | nested | nestedList => rfl
  | afterPlain _ ih | afterNested _ ih | afterNestedList _ ih =>
    exact congrArg (Prod.mk tree.1) (ih change again tree.2)

theorem modify_comm_of_ne {place : Place fields field} {elsewhere : Place fields other}
    (h : (⟨other, elsewhere⟩ : (field : Field) × Place fields field) ≠ ⟨field, place⟩)
    (change : field.content.Slot → field.content.Slot)
    (change' : other.content.Slot → other.content.Slot) (tree : Tree fields) :
    (tree.modify elsewhere change').modify place change =
      (tree.modify place change).modify elsewhere change' := by
  refine ext_slot fun at' here => ?_
  by_cases hplace : (⟨at', here⟩ : (field : Field) × Place fields field) = ⟨field, place⟩
  · cases hplace
    rw [slot_modify_self, slot_modify_of_ne h.symm, slot_modify_of_ne h.symm, slot_modify_self]
  · rw [slot_modify_of_ne hplace]
    by_cases helse : (⟨at', here⟩ : (field : Field) × Place fields field) = ⟨other, elsewhere⟩
    · cases helse
      rw [slot_modify_self, slot_modify_self, slot_modify_of_ne h]
    · rw [slot_modify_of_ne helse, slot_modify_of_ne helse, slot_modify_of_ne hplace]

end Tree

theorem Content.fill_fill (env : Environment) (name : String) (content : Content)
    (defaults : Option content.Slot) (slot : content.Slot) :
    content.fill env name defaults (content.fill env name defaults slot) =
      content.fill env name defaults slot := by
  cases content with
  | plain kind => exact kind.fill_fill env name defaults slot
  | nested message => exact congrArg some (Tree.overlay_overlay _ env (name ++ "_") defaults.join)
  | nestedList message =>
    cases (slot : List (Tree message.fields)) with
    | nil => exact ite_self _
    | cons item items => rfl

/-! ## Overlaying a part -/

/-- A part of a message that is overlaid on its own. -/
inductive Part : Fields → Type
  | whole (fields : Fields) : Part fields
  | field {fields : Fields} {field : Field} (place : Place fields field) : Part fields
  | inside {fields : Fields} {label : Label} {message : Message}
    (place : Place fields ⟨label, .nested message⟩) (part : Part message.fields) : Part fields

/-- A field lies in a part with everything in it. -/
inductive Part.Covers :
    {fields : Fields} → Part fields → {field : Field} → Place fields field → Prop
  | whole {fields : Fields} {field : Field} (place : Place fields field) :
    Covers (.whole fields) place
  | field {fields : Fields} {field : Field} (place : Place fields field) :
    Covers (.field place) place
  | inside {fields : Fields} {label : Label} {message : Message}
    (place : Place fields ⟨label, .nested message⟩) :
    Covers (.inside place (.whole message.fields)) place

namespace Tree

/-- Overlays a part of a message.  A message that it lies in is created if it is absent,
its stem is longer by the suffix of its field, and its defaults are the matching ones. -/
def overlayPart (env : Environment) : {fields : Fields} → Part fields → String →
    Option (Tree fields) → Tree fields → Tree fields
  | _, .whole _, stem, defaults, tree => tree.overlay env stem defaults
  | _, @Part.field _ field place, stem, defaults, tree =>
    tree.modify place
      (field.content.fill env (stem ++ field.label.envSuffix) (defaults.map (·.slot place)))
  | _, @Part.inside _ label message place part, stem, defaults, tree =>
    tree.modify place fun slot => some (overlayPart env part (stem ++ label.envSuffix ++ "_")
      (defaults.map (·.slot place)).join
      ((slot : Option (Tree message.fields)).getD (empty message.fields)))

variable {fields : Fields} (env : Environment)

theorem slot_overlay {field : Field} (place : Place fields field) (stem : String)
    (defaults : Option (Tree fields)) (tree : Tree fields) :
    (tree.overlay env stem defaults).slot place =
      field.content.fill env (stem ++ field.label.envSuffix) (defaults.map (·.slot place))
        (tree.slot place) :=
  slot_fill_eq env place stem defaults tree

/-- A change that filling makes up for is lost in the overlay. -/
theorem overlay_modify {field : Field} {place : Place fields field} {stem : String}
    {defaults : Option (Tree fields)} {change : field.content.Slot → field.content.Slot}
    (h : ∀ slot, field.content.fill env (stem ++ field.label.envSuffix)
      (defaults.map (·.slot place)) (change slot) =
        field.content.fill env (stem ++ field.label.envSuffix) (defaults.map (·.slot place)) slot)
    (tree : Tree fields) :
    (tree.modify place change).overlay env stem defaults = tree.overlay env stem defaults := by
  refine ext_slot fun other here => ?_
  rw [slot_overlay, slot_overlay]
  by_cases hsame : (⟨other, here⟩ : (field : Field) × Place fields field) = ⟨field, place⟩
  · cases hsame
    rw [slot_modify_self, h]
  · rw [slot_modify_of_ne hsame]

/-- A change that does nothing to a filled field does nothing to an overlaid tree. -/
theorem modify_overlay {field : Field} {place : Place fields field} {stem : String}
    {defaults : Option (Tree fields)} {change : field.content.Slot → field.content.Slot}
    (h : ∀ slot, change (field.content.fill env (stem ++ field.label.envSuffix)
      (defaults.map (·.slot place)) slot) =
        field.content.fill env (stem ++ field.label.envSuffix) (defaults.map (·.slot place)) slot)
    (tree : Tree fields) :
    (tree.overlay env stem defaults).modify place change = tree.overlay env stem defaults := by
  refine ext_slot fun other here => ?_
  by_cases hsame : (⟨other, here⟩ : (field : Field) × Place fields field) = ⟨field, place⟩
  · cases hsame
    rw [slot_modify_self, slot_overlay, h]
  · rw [slot_modify_of_ne hsame]

/-- The whole overlay takes in what a part did before it. -/
theorem overlay_overlayPart (part : Part fields) (stem : String) (defaults : Option (Tree fields))
    (tree : Tree fields) :
    (tree.overlayPart env part stem defaults).overlay env stem defaults =
      tree.overlay env stem defaults := by
  induction part generalizing stem with
  | whole fields => exact tree.overlay_overlay env stem defaults
  | field place => exact overlay_modify env (Content.fill_fill env _ _ _) tree
  | inside place part ih =>
    refine overlay_modify env (fun slot => ?_) tree
    exact congrArg some (ih _ _ _)

/-- The whole overlay leaves nothing for a part to do after it. -/
theorem overlayPart_overlay (part : Part fields) (stem : String) (defaults : Option (Tree fields))
    (tree : Tree fields) :
    (tree.overlay env stem defaults).overlayPart env part stem defaults =
      tree.overlay env stem defaults := by
  induction part generalizing stem with
  | whole fields => exact tree.overlay_overlay env stem defaults
  | field place => exact modify_overlay env (Content.fill_fill env _ _ _) tree
  | inside place part ih =>
    refine modify_overlay env (fun slot => ?_) tree
    exact congrArg some (ih _ _ _)

theorem overlayPart_whole_comm (part : Part fields) (stem : String)
    (defaults : Option (Tree fields)) (tree : Tree fields) :
    (tree.overlayPart env (.whole fields) stem defaults).overlayPart env part stem defaults =
      (tree.overlayPart env part stem defaults).overlayPart env (.whole fields) stem defaults :=
  (overlayPart_overlay env part stem defaults tree).trans
    (overlay_overlayPart env part stem defaults tree).symm

theorem overlayPart_field_comm {field : Field} (place : Place fields field) (part : Part fields)
    (stem : String) (defaults : Option (Tree fields)) (tree : Tree fields) :
    (tree.overlayPart env (.field place) stem defaults).overlayPart env part stem defaults =
      (tree.overlayPart env part stem defaults).overlayPart env (.field place) stem defaults := by
  cases part with
  | whole => exact (overlayPart_whole_comm env (.field place) stem defaults tree).symm
  | @field _ other elsewhere =>
    simp only [overlayPart]
    by_cases hsame : (⟨field, place⟩ : (field : Field) × Place _ field) = ⟨other, elsewhere⟩
    · cases hsame
      rfl
    · exact modify_comm_of_ne hsame _ _ tree
  | @inside _ label message elsewhere part =>
    simp only [overlayPart]
    by_cases hsame : (⟨field, place⟩ : (field : Field) × Place _ field) = ⟨_, elsewhere⟩
    · -- the field is the message that the part lies in, and is filled as a whole
      cases hsame
      rw [modify_modify, modify_modify]
      exact congrArg (tree.modify _ ·) (funext fun slot => congrArg some
        (overlayPart_whole_comm env part _ _ _))
    · exact modify_comm_of_ne hsame _ _ tree

theorem overlayPart_comm (part other : Part fields) (stem : String)
    (defaults : Option (Tree fields)) (tree : Tree fields) :
    (tree.overlayPart env part stem defaults).overlayPart env other stem defaults =
      (tree.overlayPart env other stem defaults).overlayPart env part stem defaults := by
  induction part generalizing stem with
  | whole fields => exact overlayPart_whole_comm env other stem defaults tree
  | field place => exact overlayPart_field_comm env place other stem defaults tree
  | @inside fields label message place part ih =>
    cases other with
    | whole => exact (overlayPart_whole_comm env (.inside place part) stem defaults tree).symm
    | field elsewhere =>
      exact (overlayPart_field_comm env elsewhere (.inside place part) stem defaults tree).symm
    | inside elsewhere other =>
      simp only [overlayPart]
      by_cases hsame : (⟨_, place⟩ : (field : Field) × Place _ field) = ⟨_, elsewhere⟩
      · cases hsame
        rw [modify_modify, modify_modify]
        exact congrArg (tree.modify _ ·) (funext fun slot => congrArg some (ih other _ _ _))
      · exact modify_comm_of_ne hsame _ _ tree

/-- A covered field is given what the whole overlay gives it. -/
theorem slot_overlayPart_of_covers {part : Part fields} {field : Field} {place : Place fields field}
    (h : part.Covers place) (stem : String) (defaults : Option (Tree fields)) (tree : Tree fields) :
    (tree.overlayPart env part stem defaults).slot place =
      (tree.overlay env stem defaults).slot place := by
  have hfield : ∀ {field : Field} (place : Place fields field),
      (tree.overlayPart env (.field place) stem defaults).slot place =
        (tree.overlay env stem defaults).slot place := by
    intro field place
    rw [overlayPart, slot_modify_self, slot_overlay]
  cases h with
  | whole => rfl
  | field => exact hfield _
  | inside => exact hfield _

/-! ## Runs of parts -/

def overlayParts (tree : Tree fields) (parts : List (Part fields)) (stem : String)
    (defaults : Option (Tree fields)) : Tree fields :=
  parts.foldl (fun tree part => tree.overlayPart env part stem defaults) tree

@[simp] theorem overlayParts_nil (tree : Tree fields) (stem : String)
    (defaults : Option (Tree fields)) : tree.overlayParts env [] stem defaults = tree := rfl

theorem overlayParts_cons (tree : Tree fields) (part : Part fields) (parts : List (Part fields))
    (stem : String) (defaults : Option (Tree fields)) :
    tree.overlayParts env (part :: parts) stem defaults =
      (tree.overlayPart env part stem defaults).overlayParts env parts stem defaults := rfl

theorem overlayParts_append (tree : Tree fields) (parts more : List (Part fields))
    (stem : String) (defaults : Option (Tree fields)) :
    tree.overlayParts env (parts ++ more) stem defaults =
      (tree.overlayParts env parts stem defaults).overlayParts env more stem defaults :=
  List.foldl_append

theorem overlay_overlayParts (tree : Tree fields) (parts : List (Part fields)) (stem : String)
    (defaults : Option (Tree fields)) :
    (tree.overlayParts env parts stem defaults).overlay env stem defaults =
      tree.overlay env stem defaults := by
  induction parts generalizing tree with
  | nil => rfl
  | cons part parts ih => rw [overlayParts_cons, ih, overlay_overlayPart]

theorem overlayParts_eq_of_perm {parts more : List (Part fields)} (h : parts.Perm more)
    (tree : Tree fields) (stem : String) (defaults : Option (Tree fields)) :
    tree.overlayParts env parts stem defaults = tree.overlayParts env more stem defaults :=
  h.foldl_eq' (fun part _ other _ tree => overlayPart_comm env part other stem defaults tree) tree

/-- A field that was covered at some point of a run holds in the end what the whole
overlay gives it. -/
theorem slot_overlayParts_of_covers {parts : List (Part fields)} {part : Part fields}
    (hpart : part ∈ parts) {field : Field} {place : Place fields field} (h : part.Covers place)
    (tree : Tree fields) (stem : String) (defaults : Option (Tree fields)) :
    (tree.overlayParts env parts stem defaults).slot place =
      (tree.overlay env stem defaults).slot place := by
  -- the part can as well come last
  obtain ⟨before, after, rfl⟩ := List.append_of_mem hpart
  have hlast : (before ++ part :: after).Perm ((before ++ after) ++ [part]) :=
    List.perm_middle.trans (List.perm_append_singleton part (before ++ after)).symm
  rw [overlayParts_eq_of_perm env hlast, overlayParts_append, overlayParts_cons, overlayParts_nil,
    slot_overlayPart_of_covers env h, overlay_overlayParts]

/-- Runs of overlays of parts, each part under the environment, the stem and the defaults that
belong to it.  The order does not matter, and if every field of the message is covered, with
any repetition, the run comes to the overlay of the whole message. -/
theorem overlayParts_unordered (message : Message) (tree : Tree message.fields)
    (env : Environment) (stem : String) (defaults : Option (Tree message.fields))
    (parts : List (Part message.fields)) :
    (∀ more, parts.Perm more →
      tree.overlayParts env parts stem defaults = tree.overlayParts env more stem defaults) ∧
    ((∀ (field : Field) (place : Place message.fields field), ∃ part ∈ parts, part.Covers place) →
      tree.overlayParts env parts stem defaults = tree.overlay env stem defaults) := by
  refine ⟨fun more h => overlayParts_eq_of_perm env h tree stem defaults, fun h => ?_⟩
  refine ext_slot fun field place => ?_
  obtain ⟨part, hpart, hcovers⟩ := h field place
  exact slot_overlayParts_of_covers env hpart hcovers tree stem defaults

end Tree

namespace Fields

def places : (fields : Fields) → List ((field : Field) × Place fields field)
  | nil => []
  | plain field kind rest =>
    ⟨_, .plain field kind rest⟩ :: rest.places.map fun place => ⟨_, .afterPlain place.2⟩
  | nested field message sub rest =>
    ⟨_, .nested field message sub rest⟩ :: rest.places.map fun place => ⟨_, .afterNested place.2⟩
  | nestedList field message sub rest =>
    ⟨_, .nestedList field message sub rest⟩ ::
      rest.places.map fun place => ⟨_, .afterNestedList place.2⟩

theorem mem_places {fields : Fields} {field : Field} (place : Place fields field) :
    ⟨field, place⟩ ∈ fields.places := by
  induction place with
  | plain | nested | nestedList => exact List.mem_cons_self
  | afterPlain _ ih | afterNested _ ih | afterNestedList _ ih =>
    exact List.mem_cons_of_mem _ (List.mem_map_of_mem ih)

def parts (fields : Fields) : List (Part fields) := fields.places.map fun place => .field place.2

theorem exists_covers {fields : Fields} {parts : List (Part fields)} (h : fields.parts ⊆ parts)
    (field : Field) (place : Place fields field) : ∃ part ∈ parts, part.Covers place :=
  ⟨_, h (List.mem_map_of_mem (mem_places place)), .field place⟩

end Fields

namespace Tree

/-- The captured data of the agent in a part of its own, and then all fields from the last
to the first. -/
def captureFirst : List (Part Agent.config.fields) :=
  .inside (.afterPlain (.afterNested (.nested _ _ _ _))) (.whole Agent.dataCapture.fields) ::
    Agent.config.fields.parts.reverse

theorem overlayParts_agent :
    (∀ (field : Field) (place : Place Agent.config.fields field),
      ∃ part ∈ captureFirst, part.Covers place) ∧
    ∀ (tree : Tree Agent.config.fields) (env : Environment) (stem : String)
      (defaults : Option (Tree Agent.config.fields)),
      tree.overlayParts env captureFirst stem defaults = tree.overlay env stem defaults := by
  have hcovers : ∀ (field : Field) (place : Place Agent.config.fields field),
      ∃ part ∈ captureFirst, part.Covers place :=
    Fields.exists_covers fun part hpart => List.mem_cons_of_mem _ (List.mem_reverse.2 hpart)
  exact ⟨hcovers, fun tree env stem defaults =>
    (overlayParts_unordered Agent.config tree env stem defaults captureFirst).2 hcovers⟩

end Tree

end LayeredConfig
