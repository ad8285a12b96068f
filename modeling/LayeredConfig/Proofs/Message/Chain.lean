import LayeredConfig.Proofs.Message.Gather

/-!
# Chains of fields one by one

`Fields` has a constructor for every kind of field.  Where the kinds do not matter
a chain is seen as a list: `Fields.cons` puts any field in front of a chain, and
`Fields.cons_induction` goes along the chain and into the messages that its fields
hold.  `Content.clean` is the cleaning of a field, whatever it holds.
-/

namespace LayeredConfig

namespace Content

/-- The message that a field holds one of, or a list of. -/
def message? : Content → Option Message
  | plain _ => none
  | nested message | nestedList message => some message

def describe : Content → String
  | plain kind => kind.describe
  | nested message => message.label.name
  | nestedList message => "list of " ++ message.label.name

def clean : Content → Json.Path → Json → Cleaned Json
  | plain kind => kind.clean
  | nested message => Fields.cleanNested message.fields.clean
  | nestedList message => Fields.cleanNestedList message.fields.clean message.label.name

def Fits : Content → Json → Prop
  | plain kind => kind.Fits
  | nested message => Json.ObjectOf message.fields.Fits
  | nestedList message => Json.ArrayOf (Json.ObjectOf message.fields.Fits)

theorem cleans (content : Content) : Cleans content.clean content.Fits := by
  cases content with
  | plain kind => exact kind.cleans
  | nested message => exact Fields.cleans_cleanNested message.fields.cleansMembers
  | nestedList message => exact Fields.cleans_cleanNestedList _ message.fields.cleansMembers

end Content

namespace Fields

def cons (field : Field) (rest : Fields) : Fields :=
  match field.content with
  | .plain kind => plain field.label kind rest
  | .nested message => nested field.label message.label message.fields rest
  | .nestedList message => nestedList field.label message.label message.fields rest

/-- Induction along a chain and into the messages that its fields hold. -/
@[elab_as_elim]
theorem cons_induction {motive : Fields → Prop} (nil : motive .nil)
    (cons : ∀ field rest, (∀ message ∈ field.content.message?, motive message.fields) →
      motive rest → motive (cons field rest)) (fields : Fields) : motive fields := by
  induction fields with
  | nil => exact nil
  | plain field kind rest ih => exact cons ⟨field, .plain kind⟩ rest nofun ih
  | nested field message sub rest ihsub ih =>
    refine cons ⟨field, .nested ⟨message, sub⟩⟩ rest (fun held h => ?_) ih
    obtain rfl := Option.some.inj h
    exact ihsub
  | nestedList field message sub rest ihsub ih =>
    refine cons ⟨field, .nestedList ⟨message, sub⟩⟩ rest (fun held h => ?_) ih
    obtain rfl := Option.some.inj h
    exact ihsub

variable {field : Field} {rest : Fields} {path : Json.Path} {members : Json.Members}

@[simp] theorem toList_cons (field : Field) (rest : Fields) :
    (cons field rest).toList = field :: rest.toList := by
  obtain ⟨label, content⟩ := field
  cases content <;> rfl

@[simp] theorem keys_cons (field : Field) (rest : Fields) :
    (cons field rest).keys = field.label.keys ++ rest.keys := by
  rw [keys, toList_cons, List.flatMap_cons]
  rfl

theorem unambiguous_cons_iff :
    (cons field rest).Unambiguous ↔ (∀ key ∈ field.label.keys, key ∉ rest.keys) ∧
      (∀ message ∈ field.content.message?, message.fields.Unambiguous) ∧ rest.Unambiguous := by
  obtain ⟨label, content⟩ := field
  cases content with
  | plain kind =>
    exact ⟨fun h => ⟨h.1, nofun, h.2⟩, fun h => ⟨h.1, h.2.2⟩⟩
  | nested message | nestedList message =>
    refine and_congr_right fun _ => and_congr_left fun _ => ?_
    exact ⟨fun h held heq => Option.some.inj heq ▸ h, fun h => h message rfl⟩

theorem fits_cons_iff : (cons field rest).Fits members ↔
    (∀ m ∈ field.label.own members, field.content.Fits m.2) ∧
      rest.Fits (field.label.others members) := by
  obtain ⟨label, content⟩ := field
  cases content <;> exact Iff.rfl

theorem clean_cons (field : Field) (rest : Fields) (path : Json.Path) (members : Json.Members) :
    (cons field rest).clean path members =
      let first :=
        cleanKeys field.content.clean field.content.describe path field.label.keys members
      ((rest.clean path first.1).1, first.2 ++ (rest.clean path first.1).2) := by
  obtain ⟨label, content⟩ := field
  cases content <;> rfl

theorem mem_keys_of_mem_toList {fields : Fields} {field : Field} (hfield : field ∈ fields.toList)
    {key : String} (hkey : key ∈ field.label.keys) : key ∈ fields.keys :=
  List.mem_flatMap.2 ⟨field, hfield, hkey⟩

theorem unambiguous_of_mem {fields : Fields} (hkeys : fields.Unambiguous) {field : Field}
    (hfield : field ∈ fields.toList) {message : Message} (h : message ∈ field.content.message?) :
    message.fields.Unambiguous := by
  induction fields using cons_induction with
  | nil => exact nomatch hfield
  | cons first rest _ ih =>
    obtain ⟨-, hsub, hrest⟩ := unambiguous_cons_iff.1 hkeys
    rw [toList_cons] at hfield
    rcases List.mem_cons.1 hfield with rfl | hfield
    · exact hsub message h
    · exact ih hrest hfield

theorem fits_of_mem {fields : Fields} (hkeys : fields.Unambiguous) (h : fields.Fits members)
    {field : Field} (hfield : field ∈ fields.toList) {m : String × Json} (hm : m ∈ members)
    (hkey : m.1 ∈ field.label.keys) : field.content.Fits m.2 := by
  induction fields using cons_induction generalizing members with
  | nil => exact nomatch hfield
  | cons first rest _ ih =>
    obtain ⟨hfirst, -, hrest⟩ := unambiguous_cons_iff.1 hkeys
    obtain ⟨hown, hothers⟩ := fits_cons_iff.1 h
    rw [toList_cons] at hfield
    rcases List.mem_cons.1 hfield with rfl | hfield
    · exact hown m (Label.mem_own_iff.2 ⟨hm, hkey⟩)
    · have hother : m.1 ∉ first.label.keys :=
        fun h => hfirst m.1 h (mem_keys_of_mem_toList hfield hkey)
      exact ih hrest hothers hfield (Label.mem_others_iff.2 ⟨hm, hother⟩)

/-- The field that a key belongs to: the first one that has it. -/
def byKey? (fields : Fields) (key : String) : Option Field :=
  fields.toList.find? fun field => field.label.keys.contains key

@[simp] theorem byKey?_nil (key : String) : nil.byKey? key = none := rfl

theorem byKey?_cons (field : Field) (rest : Fields) (key : String) :
    (cons field rest).byKey? key =
      if key ∈ field.label.keys then some field else rest.byKey? key := by
  rw [byKey?, toList_cons, List.find?_cons]
  by_cases hkey : key ∈ field.label.keys
  · rw [List.contains_iff_mem.2 hkey, if_pos hkey]
  · rw [Bool.eq_false_iff.2 (mt List.contains_iff_mem.1 hkey), if_neg hkey]
    rfl

theorem mem_of_byKey?_eq_some {fields : Fields} {field : Field} {key : String}
    (h : fields.byKey? key = some field) : field ∈ fields.toList ∧ key ∈ field.label.keys := by
  have hkey := List.find?_some (p := fun field : Field => field.label.keys.contains key) h
  exact ⟨List.mem_of_find?_eq_some h, List.contains_iff_mem.1 hkey⟩

theorem byKey?_eq_none_iff {fields : Fields} {key : String} :
    fields.byKey? key = none ↔ key ∉ fields.keys := by
  simp [byKey?, keys]

theorem byKey?_eq_some_iff {fields : Fields} (hkeys : fields.Unambiguous) {field : Field}
    {key : String} :
    fields.byKey? key = some field ↔ field ∈ fields.toList ∧ key ∈ field.label.keys := by
  refine ⟨mem_of_byKey?_eq_some, ?_⟩
  rintro ⟨hfield, hkey⟩
  induction fields using cons_induction with
  | nil => exact nomatch hfield
  | cons first rest _ ih =>
    obtain ⟨hfirst, -, hrest⟩ := unambiguous_cons_iff.1 hkeys
    rw [toList_cons] at hfield
    rw [byKey?_cons]
    rcases List.mem_cons.1 hfield with rfl | hfield
    · exact if_pos hkey
    · rw [if_neg fun h => hfirst key h (mem_keys_of_mem_toList hfield hkey)]
      exact ih hrest hfield

/-- A key of an unambiguous chain is left with what its own field keeps of the value. -/
theorem find?_clean_of_mem {fields : Fields} (hkeys : fields.Unambiguous) {field : Field}
    (hfield : field ∈ fields.toList) {key : String} (hkey : key ∈ field.label.keys)
    (hordered : (Json.object members).Ordered) :
    Assoc.find? key (fields.clean path members).1 =
      (Assoc.find? key members).bind fun json =>
        (field.content.clean (path ++ [.member key]) json).1 := by
  induction fields using cons_induction generalizing members with
  | nil => exact nomatch hfield
  | cons first rest _ ih =>
    obtain ⟨hfirst, -, hrest⟩ := unambiguous_cons_iff.1 hkeys
    rw [clean_cons]
    rw [toList_cons] at hfield
    rcases List.mem_cons.1 hfield with rfl | hfield
    · refine (find?_clean_of_not_mem (hfirst key hkey)).trans ?_
      exact find?_cleanKeys_of_mem field.content.cleans field.label.nodup_keys hkey hordered
    · refine (ih hrest hfield (ordered_cleanKeys first.content.cleans hordered)).trans ?_
      rw [find?_cleanKeys_of_not_mem fun h => hfirst key h (mem_keys_of_mem_toList hfield hkey)]

end Fields

/-- Induction into the messages that a field holds: what holds of a content if it holds of
the fields of its message holds of every content. -/
theorem Content.induction {motive : Content → Prop}
    (step : ∀ content, (∀ message ∈ content.message?, ∀ field ∈ message.fields.toList,
      motive field.content) → motive content) (content : Content) : motive content := by
  have hfields : ∀ fields : Fields, ∀ field ∈ fields.toList, motive field.content := by
    intro fields
    induction fields using Fields.cons_induction with
    | nil => exact nofun
    | cons first rest ihsub ih =>
      rw [Fields.toList_cons, List.forall_mem_cons]
      exact ⟨step first.content ihsub, ih⟩
  exact step content fun message _ => hfields message.fields

end LayeredConfig
