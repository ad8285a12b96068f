import LayeredConfig.Proofs.Code.Comment
import LayeredConfig.Proofs.Code.Nesting

/-!
# Items of generated code

A module is a header and items, each after a blank line: three for an enum, and up to three for
a message.  The writer comes back to the first level before each of them, and on its way it never
goes up from there.  So nothing of an item depends on what stands before it: an item is written
as it is at the beginning of a file, none of its comments and literals goes on into the next one,
and its brackets are nested (`blocks_closed`).
-/

namespace LayeredConfig.Code

open Text Step

/-! ## Items -/

/-- The items of an enum: its type, its names, and how it is displayed. -/
def enumItems (decl : EnumDecl) : List (List Step) :=
  [enumType decl, enumNames decl, enumDisplay decl]

/-- The items of a message: its record, the methods of the record if there are any, and its
overlay. -/
def messageItems (runtime : String) (decl : MessageDecl) : List (List Step) :=
  [record decl] ++ (if decl.fields.isEmpty then [] else [recordMethods decl]) ++
    [overlay runtime decl]

def items (schema : Schema) (options : Options) : List (List Step) :=
  schema.enums.flatMap enumItems ++ schema.messages.flatMap (messageItems options.runtime)

def afterGaps (items : List (List Step)) : List Step := items.flatMap fun item => .gap :: item

theorem afterGaps_flatMap {α : Type} (as : List α) (f : α → List (List Step)) :
    afterGaps (as.flatMap f) = as.flatMap fun a => afterGaps (f a) := List.flatMap_assoc

theorem afterGaps_enumItems (decl : EnumDecl) :
    afterGaps (enumItems decl) = .gap :: enumCode decl := by
  simp [afterGaps, enumItems, enumCode]

theorem afterGaps_messageItems (runtime : String) (decl : MessageDecl) :
    afterGaps (messageItems runtime decl) = .gap :: messageCode runtime decl := by
  rw [messageItems, messageCode]
  split <;> simp [afterGaps]

theorem moduleCode_eq (schema : Schema) (options : Options) :
    moduleCode schema options = header options :: afterGaps (items schema options) := by
  have happend : ∀ items more : List (List Step),
      afterGaps (items ++ more) = afterGaps items ++ afterGaps more :=
    fun _ _ => List.flatMap_append
  simp only [items, happend, afterGaps_flatMap, afterGaps_enumItems, afterGaps_messageItems]
  rfl

theorem forall_mem_items {P : List Step → Prop} {schema : Schema} {options : Options}
    (henums : ∀ decl ∈ schema.enums, P (enumType decl) ∧ P (enumNames decl) ∧ P (enumDisplay decl))
    (hmessages : ∀ decl ∈ schema.messages,
      P (record decl) ∧ P (recordMethods decl) ∧ P (overlay options.runtime decl)) :
    ∀ item ∈ items schema options, P item := by
  simp only [items, List.forall_mem_append, List.forall_mem_flatMap]
  refine ⟨fun decl hdecl => ?_, fun decl hdecl => ?_⟩
  · obtain ⟨htype, hnames, hdisplay⟩ := henums decl hdecl
    simp [enumItems, htype, hnames, hdisplay]
  · obtain ⟨hrecord, hmethods, hoverlay⟩ := hmessages decl hdecl
    rw [messageItems]
    split <;> simp [hrecord, hmethods, hoverlay]

theorem overlay_mem_items {schema : Schema} {decl : MessageDecl} (h : decl ∈ schema.messages)
    (options : Options) : overlay options.runtime decl ∈ items schema options :=
  List.mem_append_right _ (List.mem_flatMap.2
    ⟨decl, h, List.mem_append_right _ List.mem_cons_self⟩)

/-! ## Levels -/

theorem balanced_item (schema : Schema) (options : Options) :
    ∀ item ∈ items schema options, Balanced item := by
  refine forall_mem_items (fun decl _ => ?_) fun decl _ => ?_
  · exact ⟨balanced_enumType decl, balanced_enumNames decl, fun _ => rfl⟩
  · exact ⟨balanced_record decl, balanced_recordMethods decl, balanced_overlay _ decl⟩

theorem balanced_afterGaps {items : List (List Step)} (h : ∀ item ∈ items, Balanced item) :
    Balanced (afterGaps items) :=
  balanced_flatMap fun item hitem => (h item hitem).cons_gap

def levelAfter (steps : List Step) : Nat := steps.foldl Step.after 0

/-- A module up to an item: the header, the items before it, and a blank line. -/
def upTo (options : Options) (before : List (List Step)) : List Step :=
  header options :: afterGaps before ++ [.gap]

theorem balanced_upTo (options : Options) {before : List (List Step)}
    (h : ∀ item ∈ before, Balanced item) : Balanced (upTo options before) :=
  ((balanced_afterGaps h).cons_line _).append balanced_nil.cons_gap

theorem prefix_spaced {groups more : List (List Step)} (h : groups <+: more) :
    spaced groups <+: spaced more := by
  obtain ⟨rest, rfl⟩ := h
  induction groups with
  | nil => exact List.nil_prefix
  | cons group groups ih =>
    cases groups with
    | nil =>
      cases rest with
      | nil => exact List.prefix_rfl
      | cons next rest =>
        rw [List.singleton_append, spaced, spaced, List.append_assoc]
        exact List.prefix_append _ _
    | cons next groups => exact (List.prefix_append_right_inj _).2 ih

def fillFields (runtime : String) (fields : List FieldDecl) : List Step :=
  spaced (fields.map (fillField runtime))

theorem balanced_fillFields (runtime : String) (fields : List FieldDecl) :
    Balanced (fillFields runtime fields) :=
  balanced_spaced (List.forall_mem_map.2 fun field _ => balanced_fillField runtime field)

/-- Where an overlay begins to fill fields: its first steps, and the step that begins the
routine. -/
structure Filling (runtime : String) (decl : MessageDecl) (start : List Step) (opening : Step) :
    Prop where
  overlay : overlay runtime decl = start ++ routine runtime decl ++ [closeBrace]
  routine : routine runtime decl = opening :: fillFields runtime decl.fields ++ [closeBrace]
  /-- From any level, the body of the routine is two below it. -/
  body : ∀ level, reach? level (start ++ [opening]) = some (level + 2)

theorem prefix_fillFields {fields more : List FieldDecl} (h : fields <+: more) (runtime : String) :
    fillFields runtime fields <+: fillFields runtime more :=
  prefix_spaced (h.map _)

/-- Between the fields the level is that of the body. -/
theorem Filling.levelAfter_eq {runtime : String} {decl : MessageDecl} {start : List Step}
    {opening : Step} (h : Filling runtime decl start opening) {front : List Step}
    (hfront : Balanced front) (fields : List FieldDecl) :
    levelAfter (front ++ start ++ opening :: fillFields runtime fields) = 2 := by
  rw [← List.singleton_append, List.append_assoc, ← List.append_assoc start]
  have hbody : reach? 0 (front ++ (start ++ [opening] ++ fillFields runtime fields)) = some 2 := by
    rw [reach?_append (hfront 0), reach?_append (h.body 0)]
    exact balanced_fillFields runtime fields 2
  exact foldl_after_of_reach? hbody

theorem exists_filling (runtime : String) (decl : MessageDecl) :
    ∃ start opening, Filling runtime decl start opening := by
  refine ⟨_, _, rfl, rfl, fun level => ?_⟩
  rw [List.append_assoc, List.append_assoc]
  exact reach?_append (balanced_table runtime decl (level + 1))

theorem levelAfter_of_balanced {steps : List Step} (h : Balanced steps) : levelAfter steps = 0 :=
  foldl_after_of_reach? (h 0)

/-! ## Texts -/

theorem writeAll_afterGaps {items : List (List Step)} (h : ∀ item ∈ items, Balanced item)
    (level : Nat) :
    writeAll level (afterGaps items) = items.flatMap fun item => '\n' :: writeAll level item := by
  induction items with
  | nil => rfl
  | cons item items ih =>
    obtain ⟨hitem, hitems⟩ := List.forall_mem_cons.1 h
    have hrest : writeAll level (item ++ afterGaps items) =
        writeAll level item ++ writeAll level (afterGaps items) := by
      rw [writeAll_append, foldl_after_of_reach? (hitem level)]
    rw [List.flatMap_cons, ← ih hitems]
    exact congrArg ('\n' :: ·) hrest

theorem toList_generate_eq (schema : Schema) (options : Options) :
    (generate schema options).toList = (header options).write 0 ++
      (items schema options).flatMap fun item => '\n' :: writeAll 0 item := by
  rw [generate, String.toList_ofList, moduleCode_eq, writeAll,
    ← writeAll_afterGaps (balanced_item schema options)]
  rfl

theorem Skims.of_contained {steps : List Step} (h : ∀ step ∈ steps, step.Contained) (level : Nat) :
    Skims .code (writeAll level steps) (bare (writeAll level steps)) .code := by
  obtain ⟨found, hfound, -⟩ := skims_writeAll h level
  rwa [hfound.bare_eq]

/-- The header is a comment, unless the name of the file breaks the line. -/
theorem not_mem_header {options : Options} (h : ∀ name ∈ options.sourceName, '\n' ∉ name.toList) :
    ∃ text, header options = .line (.comment text) ∧ '\n' ∉ text.toList := by
  refine ⟨_, rfl, ?_⟩
  obtain ⟨runtime, sourceName⟩ := options
  cases sourceName with
  | none => exact (by decide : '\n' ∉ "@generated by htconfig. Do not edit.".toList)
  | some name =>
    have hname := h name rfl
    simp [String.toList_append, hname]

theorem skims_header {options : Options} (h : ∀ name ∈ options.sourceName, '\n' ∉ name.toList) :
    Skims .code ((header options).write 0) ['\n'] .code := by
  obtain ⟨text, hheader, htext⟩ := not_mem_header h
  have hspace : '\n' ∉ ' ' :: text.toList := by simpa using htext
  rw [hheader]
  exact skims_comment_line hspace 0

/-- What does not go on after its line does not go on after its item. -/
theorem skims_flatMap {items : List (List Step)}
    (h : ∀ item ∈ items, ∀ step ∈ item, step.Contained) :
    Skims .code (items.flatMap fun item => '\n' :: writeAll 0 item)
      (items.flatMap fun item => '\n' :: bare (writeAll 0 item)) .code := by
  induction items with
  | nil => exact skims_nil _
  | cons item items ih =>
    obtain ⟨hitem, hitems⟩ := List.forall_mem_cons.1 h
    have hgap : Region.code.next '\n' = (.code, ['\n']) := rfl
    rw [List.flatMap_cons, List.flatMap_cons]
    exact (Skims.cons hgap (Skims.of_contained hitem 0)).append (ih hitems)

section

variable {schema : Schema} (hnames : ValidNames schema) {options : Options}

include hnames in
theorem contained_moduleCode (hruntime : Plain options.runtime)
    (hsource : ∀ name ∈ options.sourceName, '\n' ∉ name.toList) :
    ∀ step ∈ moduleCode schema options, step.Contained := by
  intro step hstep
  rcases legibleBut_moduleCode hnames hruntime step hstep with hforeign | hlegible
  · rcases List.mem_cons.1 hforeign with rfl | hdoc
    · obtain ⟨text, hheader, htext⟩ := not_mem_header hsource
      rw [hheader]
      exact htext
    · obtain ⟨doc, -, hstep⟩ := List.mem_flatMap.1 hdoc
      obtain ⟨line, hline, rfl⟩ := List.mem_map.1 hstep
      exact not_mem_of_mem_docLines hline
  · exact hlegible.contained

include hnames in
theorem contained_item (hruntime : Plain options.runtime)
    (hsource : ∀ name ∈ options.sourceName, '\n' ∉ name.toList) :
    ∀ item ∈ items schema options, ∀ step ∈ item, step.Contained := by
  intro item hitem step hstep
  refine contained_moduleCode hnames hruntime hsource step ?_
  rw [moduleCode_eq]
  exact List.mem_cons_of_mem _ (List.mem_flatMap.2 ⟨item, hitem, List.mem_cons_of_mem _ hstep⟩)

include hnames in
theorem nested_item (hruntime : IsPath options.runtime) :
    ∀ item ∈ items schema options, Nested (bracketsOf item) := by
  refine forall_mem_items (fun decl hdecl => ?_) fun decl hdecl => ?_
  · have hname := (isPath_of_isTypeName (hnames.enums decl hdecl)).brackets_eq
    have hvalues : ∀ value ∈ decl.type.names, brackets (Name.toVariant value) = [] :=
      fun value hvalue => brackets_toVariant (hnames.values decl hdecl value hvalue)
    exact ⟨nested_enumType hname hvalues, nested_enumNames hname hvalues, nested_enumDisplay hname⟩
  · have hname := hnames.messages decl hdecl
    have hfields := hnames.fields decl hdecl
    have htypes := hnames.types decl hdecl
    exact ⟨nested_record hnames hname hfields htypes,
      nested_recordMethods hnames hname hfields htypes,
      nested_overlay hnames hruntime.brackets_eq hname hfields htypes⟩

end

/-! ## Modules -/

/-- How a module opens and closes its blocks. -/
structure ClosesBlocks (schema : Schema) (options : Options) : Prop where
  /-- A module is a header and items, each after a blank line. -/
  code : moduleCode schema options = header options :: afterGaps (items schema options)
  /-- The writer goes up only from below the first level. -/
  inside : ∀ before l after, moduleCode schema options = before ++ .leave l :: after →
    0 < levelAfter before
  /-- Every item begins at the first level, -/
  item : ∀ before item after, items schema options = before ++ item :: after →
    levelAfter (upTo options before) = 0
  /-- and the module ends there. -/
  last : levelAfter (moduleCode schema options) = 0
  /-- Every message has an overlay, with a routine that fills its fields one after the other.
  Before the first one and after each of them the level is that of the routine's body. -/
  routine : ∀ decl ∈ schema.messages, overlay options.runtime decl ∈ items schema options ∧
    ∃ start opening, Filling options.runtime decl start opening ∧
      ∀ before after, items schema options = before ++ overlay options.runtime decl :: after →
        ∀ fields, fields <+: decl.fields →
          fillFields options.runtime fields <+: fillFields options.runtime decl.fields ∧
          levelAfter (upTo options before ++ start ++
            opening :: fillFields options.runtime fields) = 2
  /-- Every item is written as it is at the beginning of a file, -/
  written : (generate schema options).toList = (header options).write 0 ++
    (items schema options).flatMap fun item => '\n' :: writeAll 0 item
  /-- and none has comments or literals that go on into the next one. -/
  apart : bare (generate schema options).toList =
    '\n' :: (items schema options).flatMap fun item => '\n' :: bare (writeAll 0 item)
  /-- Outside comments and literals the brackets of an item are nested. -/
  nested : ∀ item ∈ items schema options, Nested (bare (writeAll 0 item))

/-- In the code of an accepted schema every block that is opened is closed, for the writer as for
a reader of the brackets. -/
theorem blocks_closed {raw : RawSchema} {schema : Schema} (h : Schema.resolve raw = .ok schema)
    {options : Options} (hruntime : IsPath options.runtime)
    (hsource : ∀ name ∈ options.sourceName, '\n' ∉ name.toList) :
    ClosesBlocks schema options := by
  have hnames := validNames_of_resolve h
  have hbefore : ∀ {before item after}, items schema options = before ++ item :: after →
      Balanced (upTo options before) := by
    intro before item after hitems
    refine balanced_upTo options fun item hitem => balanced_item schema options item ?_
    exact hitems ▸ List.mem_append_left _ hitem
  have hmodule := balanced_moduleCode schema options
  have hcontained := contained_item hnames hruntime.plain hsource
  exact {
    code := moduleCode_eq schema options
    inside := fun before l after hcode => pos_of_reach?_leave (hcode ▸ hmodule 0)
    item := fun before item after hitems => levelAfter_of_balanced (hbefore hitems)
    last := levelAfter_of_balanced hmodule
    routine := by
      intro decl hdecl
      obtain ⟨start, opening, hfilling⟩ := exists_filling options.runtime decl
      refine ⟨overlay_mem_items hdecl options, start, opening, hfilling, ?_⟩
      intro before after hitems fields hfields
      exact ⟨prefix_fillFields hfields _, hfilling.levelAfter_eq (hbefore hitems) fields⟩
    written := toList_generate_eq schema options
    apart := by
      rw [toList_generate_eq]
      exact ((skims_header hsource).append (skims_flatMap hcontained)).bare_eq
    nested := by
      intro item hitem
      rw [nested_bare_iff (hcontained item hitem)]
      exact nested_item hnames hruntime item hitem }

theorem blocks_closed_variedSchema :
    Schema.resolve variedDeclaration = .ok variedSchema ∧
      ClosesBlocks variedSchema { sourceName := some "app.toml" } := by
  have hschema : Schema.resolve variedDeclaration = .ok variedSchema := rfl
  refine ⟨hschema, blocks_closed hschema (by decide) ?_⟩
  rintro _ ⟨⟩
  decide

end LayeredConfig.Code
