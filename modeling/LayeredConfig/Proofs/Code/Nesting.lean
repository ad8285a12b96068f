import LayeredConfig.Proofs.Code.Bare
import LayeredConfig.Proofs.Code.Legible

/-!
# Brackets of generated code

The brackets of generated code come from its fixed parts: no name has one, and neither has the
path of the runtime.  So the items of a module are nested, whatever they are called
(`nested_enumType`, `nested_enumNames`, `nested_enumDisplay`, `nested_record`,
`nested_recordMethods`, `nested_overlay`).
-/

namespace LayeredConfig.Code

open Text Step

/-! ## Brackets of lines -/

section

variable (s : String) (ps : List Piece)

@[simp] theorem brackets_text : (text s).brackets = brackets s := List.flatMap_singleton ..

@[simp] theorem brackets_block : (block s).brackets = brackets s := List.flatMap_singleton ..

@[simp] theorem brackets_close : (close s).brackets = brackets s := List.flatMap_singleton ..

@[simp] theorem brackets_pieces : (pieces ps).brackets = ps.flatMap Piece.brackets := rfl

@[simp] theorem brackets_blockOf : (blockOf ps).brackets = ps.flatMap Piece.brackets := rfl

@[simp] theorem brackets_closeBrace : closeBrace.brackets = ['\x7d'] := rfl

@[simp] theorem brackets_gap : gap.brackets = [] := rfl

@[simp] theorem brackets_doc : (doc s).brackets = [] := rfl

@[simp] theorem brackets_deeper : deeper.brackets = [] := rfl

@[simp] theorem brackets_code : (Piece.code s).brackets = brackets s := rfl

@[simp] theorem brackets_literal : (Piece.literal s).brackets = [] := rfl

end

def bracketsOf (steps : List Step) : List Char := steps.flatMap Step.brackets

@[simp] theorem bracketsOf_nil : bracketsOf [] = [] := rfl

@[simp] theorem bracketsOf_cons (step : Step) (steps : List Step) :
    bracketsOf (step :: steps) = step.brackets ++ bracketsOf steps := List.flatMap_cons

@[simp] theorem bracketsOf_append (steps more : List Step) :
    bracketsOf (steps ++ more) = bracketsOf steps ++ bracketsOf more := List.flatMap_append

theorem nested_bracketsOf_flatMap {α : Type} {items : List α} {f : α → List Step}
    (h : ∀ a ∈ items, Nested (bracketsOf (f a))) : Nested (bracketsOf (items.flatMap f)) := by
  rw [bracketsOf, List.flatMap_assoc]
  exact nested_flatMap h

theorem nested_bracketsOf_map {α : Type} {items : List α} {f : α → Step}
    (h : ∀ a ∈ items, Nested (f a).brackets) : Nested (bracketsOf (items.map f)) := by
  rw [bracketsOf, List.flatMap_map]
  exact nested_flatMap h

theorem nested_spaced {groups : List (List Step)}
    (h : ∀ group ∈ groups, Nested (bracketsOf group)) : Nested (bracketsOf (spaced groups)) := by
  induction groups with
  | nil => exact .nil
  | cons group groups ih =>
    obtain ⟨hgroup, hgroups⟩ := List.forall_mem_cons.1 h
    cases groups with
    | nil => exact hgroup
    | cons next groups =>
      rw [spaced, bracketsOf_append, bracketsOf_append]
      exact (hgroup.append .nil).append (ih hgroups)

@[simp] theorem bracketsOf_docs (doc : String) : bracketsOf (docs doc) = [] := by
  rw [bracketsOf, docs, List.flatMap_map]
  exact List.flatMap_eq_nil_iff.2 fun _ _ => rfl

@[simp] theorem brackets_literals (texts : List String) :
    (literals texts).flatMap Piece.brackets = [] := by
  induction texts with
  | nil => rfl
  | cons text texts ih =>
    cases texts with
    | nil => rfl
    | cons next texts => exact ih

/-! ## Names -/

/-- Names, perhaps with colons between them. -/
def IsPath (text : String) : Prop := text.toList.all (fun c => isWordChar c || c == ':') = true

instance instDecidableIsPath (text : String) : Decidable (IsPath text) :=
  inferInstanceAs (Decidable (_ = true))

theorem isPath_of_isAlphanum {name : String} (h : ∀ c ∈ name.toList, c.isAlphanum ∨ c = '_') :
    IsPath name := by
  refine List.all_eq_true.2 fun c hc => ?_
  rcases h c hc with h | rfl
  · simp [isWordChar, h]
  · decide

theorem isPath_of_isTypeName {name : String} (h : Name.isTypeName name = true) : IsPath name :=
  isPath_of_isAlphanum fun _ hc => Or.inl ((FieldType.word_of_isTypeName h).isAlphanum _ hc)

theorem isPath_of_isFieldName {name : String} (h : Name.isFieldName name = true) : IsPath name :=
  isPath_of_isAlphanum (isAlphanum_of_isWord (isWord_of_isFieldName h))

theorem IsPath.plain {text : String} (h : IsPath text) : Plain text := by
  refine plain_iff.2 fun c hc => ?_
  have hpath := List.all_eq_true.1 h c hc
  refine ⟨?_, ?_, ?_, ?_, ?_⟩ <;> rintro rfl <;> exact absurd hpath (by decide)

theorem IsPath.brackets_eq {text : String} (h : IsPath text) : brackets text = [] := by
  have hnot : ∀ c ∈ ['(', ')', '[', ']', '\x7b', '\x7d'], (isWordChar c || c == ':') = false := by
    simp [isWordChar]
  refine List.filter_eq_nil_iff.2 fun c hc hbracket => ?_
  have hpath := List.all_eq_true.1 h c hc
  exact Bool.false_ne_true ((hnot c (mem_of_isBracket hbracket)).symm.trans hpath)

theorem brackets_toIdentifier {name : String} (h : Name.isFieldName name = true) :
    brackets (Name.toIdentifier name) = [] := by
  rw [Name.toIdentifier]
  split
  · rw [brackets_append, (isPath_of_isFieldName h).brackets_eq]
    rfl
  · exact (isPath_of_isFieldName h).brackets_eq

theorem brackets_toVariant {value : String} (h : Name.isEnumValueName value = true) :
    brackets (Name.toVariant value) = [] :=
  (isPath_of_isAlphanum fun _ hc => Or.inl (isAlphanum_of_mem_toVariant h hc)).brackets_eq

/-! ## Enums -/

section

variable {decl : EnumDecl} (hname : brackets decl.type.name = [])
  (hvalues : ∀ value ∈ decl.type.names, brackets (Name.toVariant value) = [])

include hvalues in
theorem nested_variants : Nested (bracketsOf (variants decl.type.names)) := by
  refine nested_bracketsOf_flatMap fun value hvalue => ?_
  simp only [bracketsOf_cons, bracketsOf_nil, brackets_pieces, brackets_text, List.flatMap_cons,
    List.flatMap_nil, brackets_code, brackets_literal, brackets_append, hvalues value hvalue]
  decide

include hname hvalues in
theorem nested_enumType : Nested (bracketsOf (enumType decl)) := by
  simp only [enumType, bracketsOf_append]
  refine (nested_variants hvalues).between ['\x7d'] ?_ rfl
  simp only [bracketsOf_docs, bracketsOf_cons, bracketsOf_nil, brackets_text, brackets_block,
    brackets_append, hname]
  decide

include hname hvalues in
theorem nested_enumNames : Nested (bracketsOf (enumNames decl)) := by
  have hshown : Nested (bracketsOf
      (decl.type.names.map fun value => pieces (shownLine value))) := by
    refine nested_bracketsOf_map fun value hvalue => ?_
    simp only [shownLine, brackets_pieces, List.flatMap_cons, List.flatMap_nil, brackets_code,
      brackets_literal, brackets_append, hvalues value hvalue]
    decide
  have hparsed : Nested (bracketsOf
      (decl.type.names.map fun value => pieces (parsedLine value))) := by
    refine nested_bracketsOf_map fun value hvalue => ?_
    simp only [parsedLine, brackets_pieces, List.flatMap_cons, List.flatMap_nil, brackets_code,
      brackets_literal, brackets_append, hvalues value hvalue]
    decide
  have hbefore : awaitAll [] (bracketsOf
      [block ("impl " ++ decl.type.name ++ " \x7b"), doc "Symbolic names in declaration order.",
        pieces (namesLine decl.type.names), gap,
        doc "Symbolic name used in config files and env vars.",
        block "pub fn as_str_name(&self) -> &'static str \x7b", block "match self \x7b"]) =
      some ['\x7d', '\x7d', '\x7d'] := by
    simp only [bracketsOf_cons, bracketsOf_nil, brackets_block, brackets_doc, brackets_gap,
      brackets_pieces, namesLine, List.flatMap_append, List.flatMap_cons, List.flatMap_nil,
      brackets_code, brackets_literals, brackets_append, hname]
    decide
  simp only [enumNames_eq, bracketsOf_append]
  refine hparsed.between ['\x7d', '\x7d', '\x7d'] ?_ (by decide)
  rw [awaitAll_append, awaitAll_append, hbefore, Option.bind_some, hshown.awaitAll_eq]
  decide

include hname in
theorem nested_enumDisplay : Nested (bracketsOf (enumDisplay decl)) := by
  simp only [enumDisplay, bracketsOf_cons, bracketsOf_nil, brackets_block, brackets_text,
    brackets_closeBrace, brackets_append, hname]
  decide

end

/-! ## Records -/

section

variable {schema : Schema} (hnames : ValidNames schema)

include hnames in
theorem ValidNames.brackets_codeType {type : ValueType} (h : type.DeclaredBy schema) :
    brackets type.codeType = [] := by
  cases type with
  | scalar s => cases s <;> decide
  | enum e => exact (isPath_of_isTypeName (hnames.enum h)).brackets_eq

include hnames in
theorem ValidNames.brackets_message {name : String}
    (h : ∃ decl ∈ schema.messages, decl.name = name) : brackets name = [] :=
  (isPath_of_isTypeName (hnames.message h)).brackets_eq

theorem brackets_mapOf (key value : Scalar) : brackets (mapOf key value) = [] := by
  cases key <;> cases value <;> decide

include hnames in
theorem ValidNames.brackets_slotType {type : FieldType} (h : type.DeclaredBy schema) :
    brackets (slotType type) = [] := by
  cases type with
  | plain kind =>
    cases kind with
    | leaf type | list type =>
      rw [slotType, brackets_append, brackets_append, hnames.brackets_codeType h]
      decide
    | map key value => exact brackets_mapOf key value
  | message name | messageList name =>
    rw [slotType, brackets_append, brackets_append, hnames.brackets_message h]
    decide

theorem nested_slotAttribute (field : FieldDecl) : Nested (slotAttribute field).brackets := by
  rw [slotAttribute]
  split
  · simp only [brackets_pieces, List.flatMap_cons, List.flatMap_nil, brackets_code,
      brackets_literal]
    decide
  · simp only [brackets_pieces, List.flatMap_append, List.flatMap_cons, List.flatMap_nil,
      brackets_code, brackets_literal]
    decide

variable {field : FieldDecl} (hfield : Name.isFieldName field.name = true)
  (htype : field.type.DeclaredBy schema)

include hnames hfield htype in
theorem nested_slot : Nested (bracketsOf (slot field)) := by
  have hline : brackets ("pub " ++ Name.toIdentifier field.name ++ ": " ++ slotType field.type ++
      ",") = [] := by
    simp only [brackets_append, brackets_toIdentifier hfield, hnames.brackets_slotType htype]
    decide
  simp only [slot, bracketsOf_append, bracketsOf_docs, bracketsOf_cons, bracketsOf_nil,
    brackets_text, hline]
  exact Nested.nil.append ((nested_slotAttribute field).append .nil)

theorem nested_reader {doc identifier type : String} {body : List Piece}
    (hidentifier : brackets identifier = []) (htype : Nested (brackets type))
    (hbody : Nested (body.flatMap Piece.brackets)) :
    Nested (bracketsOf (reader doc identifier type body)) := by
  have hhead : Nested (brackets ("pub fn " ++ identifier ++ "(&self) -> ")) := by
    simp only [brackets_append, hidentifier]
    decide
  have hline : awaitAll [] (brackets ("pub fn " ++ identifier ++ "(&self) -> " ++ type ++
      " \x7b")) = some ['\x7d'] := by
    rw [brackets_append, brackets_append, awaitAll_append, (hhead.append htype).awaitAll_eq]
    decide
  have hclose : awaitAll ['\x7d'] ['\x7d'] = some [] := rfl
  have hreader := hbody.between ['\x7d'] hline hclose
  simpa [reader] using hreader

include hnames hfield htype in
theorem nested_methods : Nested (bracketsOf (methods field)) := by
  obtain ⟨name, type, doc⟩ := field
  have hidentifier := brackets_toIdentifier hfield
  have hbody : ∀ {before after : String}, Nested (brackets before ++ brackets after) →
      Nested ([Piece.code (before ++ Name.toIdentifier name ++ after)].flatMap Piece.brackets) := by
    intro before after h
    simpa [brackets_append, hidentifier] using h
  have hslot : Nested ([Piece.code ("&self." ++ Name.toIdentifier name)].flatMap
      Piece.brackets) := by
    simp only [List.flatMap_cons, List.flatMap_nil, brackets_code, brackets_append, hidentifier]
    decide
  cases type with
  | plain kind =>
    cases kind with
    | leaf type =>
      cases type with
      | scalar s =>
        cases s with
        | string =>
          refine nested_reader hidentifier (by decide) ?_
          simp only [List.flatMap_cons, List.flatMap_nil, brackets_code, brackets_literal,
            brackets_append, hidentifier]
          decide
        | bool | int32 => exact nested_reader hidentifier (by decide) (hbody (by decide))
      | enum e =>
        have he := (isPath_of_isTypeName (hnames.enum htype)).brackets_eq
        exact nested_reader hidentifier (he ▸ .nil) (hbody (by decide))
    | list type =>
      refine nested_reader hidentifier ?_ hslot
      simp only [brackets_append, hnames.brackets_codeType htype]
      decide
    | map key value =>
      have hmap := brackets_mapOf key value
      have hreader : Nested (bracketsOf (reader ("Returns " ++ ("`" ++ name ++ "`") ++
          "; empty when unset.") (Name.toIdentifier name) ("&" ++ mapOf key value)
          [Piece.code ("&self." ++ Name.toIdentifier name)])) := by
        refine nested_reader hidentifier ?_ hslot
        simp only [brackets_append, hmap]
        decide
      rw [methods, bracketsOf_append]
      refine hreader.append ?_
      simp only [bracketsOf_cons, bracketsOf_nil, brackets_gap, brackets_doc, brackets_block,
        brackets_text, brackets_closeBrace, brackets_append, hidentifier, hmap,
        (isPath_of_isFieldName hfield).brackets_eq]
      cases key <;> cases value <;> decide
  | message m =>
    refine nested_reader hidentifier ?_ (hbody (by decide))
    simp only [brackets_append, hnames.brackets_message htype]
    decide
  | messageList m =>
    refine nested_reader hidentifier ?_ hslot
    simp only [brackets_append, hnames.brackets_message htype]
    decide

/-! ## Overlays -/

variable {runtime : String} (hruntime : brackets runtime = [])

theorem nested_around {start rest : String} {inner : List Piece}
    (h : Nested (inner.flatMap Piece.brackets)) (awaited : List Char)
    (hstart : awaitAll [] (brackets start) = some awaited)
    (hrest : awaitAll awaited (brackets rest) = some []) :
    Nested (([Piece.code start] ++ inner ++ [Piece.code rest]).flatMap Piece.brackets) := by
  simpa using h.between awaited hstart hrest

include hruntime in
theorem brackets_scalarEntry (s : Scalar) : brackets (scalarEntry runtime s) = [] := by
  cases s <;>
    · simp only [scalarEntry, brackets_append, hruntime]
      decide

include hnames hruntime in
theorem nested_typeEntry {type : ValueType} (h : type.DeclaredBy schema) :
    Nested ((typeEntry runtime type).flatMap Piece.brackets) := by
  cases type with
  | scalar s =>
    simp only [typeEntry, List.flatMap_cons, List.flatMap_nil, brackets_code,
      brackets_scalarEntry hruntime]
    exact .nil
  | enum e =>
    have he := (isPath_of_isTypeName (hnames.enum h)).brackets_eq
    simp only [typeEntry, List.flatMap_cons, List.flatMap_nil, brackets_code, brackets_literal,
      brackets_append, hruntime, he]
    decide

include hnames hruntime in
theorem nested_kindEntry {type : FieldType} (h : type.DeclaredBy schema) :
    Nested ((kindEntry runtime type).flatMap Piece.brackets) := by
  cases type with
  | plain kind =>
    cases kind with
    | leaf type | list type =>
      refine nested_around (nested_typeEntry hnames hruntime h) [')'] ?_ (by decide)
      rw [brackets_append, hruntime]
      decide
    | map key value =>
      simp only [kindEntry, List.flatMap_cons, List.flatMap_nil, brackets_code, brackets_append,
        hruntime, brackets_scalarEntry hruntime]
      decide
  | message m | messageList m =>
    simp only [kindEntry, overlayOf, List.flatMap_cons, List.flatMap_nil, brackets_code,
      brackets_append, hruntime, hnames.brackets_message h]
    decide

theorem nested_docEntry (doc : String) : Nested ((docEntry doc).flatMap Piece.brackets) := by
  refine nested_around ?_ [']'] (by decide) (by decide)
  rw [brackets_literals]
  exact .nil

theorem nested_tableLine {name : String} (hname : Nested (brackets (name ++ ": ")))
    {value : List Piece} (hvalue : Nested (value.flatMap Piece.brackets)) :
    Nested (tableLine name value).brackets :=
  nested_around hvalue [] (nested_iff.1 hname) (by decide)

theorem nested_tableLine_literal {name : String} (hname : Nested (brackets (name ++ ": ")))
    (value : String) : Nested (tableLine name [.literal value]).brackets :=
  nested_tableLine hname .nil

include hnames hruntime htype in
theorem nested_fieldEntry : Nested (bracketsOf (fieldEntry runtime field)) := by
  have hlines : Nested (bracketsOf
      [tableLine "name" [.literal field.name],
        tableLine "public_name" [.literal (Name.toPublic field.name)],
        tableLine "env_suffix" [.literal (Name.toEnvSuffix field.name)],
        tableLine "doc" (docEntry field.doc),
        tableLine "kind" (kindEntry runtime field.type)]) := by
    refine nested_flatMap ?_
    simp only [List.forall_mem_cons, List.not_mem_nil, false_imp_iff, implies_true, and_true]
    exact ⟨nested_tableLine_literal (by decide) _,
      nested_tableLine_literal (by decide) _,
      nested_tableLine_literal (by decide) _,
      nested_tableLine (by decide) (nested_docEntry field.doc),
      nested_tableLine (by decide) (nested_kindEntry hnames hruntime htype)⟩
  have hopen : awaitAll [] (bracketsOf [block (runtime ++ "::overlay::Field \x7b")]) =
      some ['\x7d'] := by
    simp only [bracketsOf_cons, bracketsOf_nil, brackets_block, brackets_append, hruntime]
    decide
  have hclose : awaitAll ['\x7d'] (bracketsOf [close "\x7d,"]) = some [] := by decide
  have hentry := hlines.between ['\x7d'] hopen hclose
  rwa [← bracketsOf_append, ← bracketsOf_append] at hentry

/-! ### Filling fields -/

theorem nested_variableName (rest : String) :
    Nested ((variableName rest).flatMap Piece.brackets) := by
  simp only [variableName, List.flatMap_cons, List.flatMap_nil, brackets_code, brackets_literal]
  decide

include hnames in
theorem nested_readValue {name : List Piece} (hname : Nested (name.flatMap Piece.brackets))
    {type : ValueType} (h : type.DeclaredBy schema) :
    Nested ((readValue name type).flatMap Piece.brackets) := by
  cases type with
  | scalar s => cases s <;> exact nested_around hname [')'] (by decide) (by decide)
  | enum e =>
    have he := (isPath_of_isTypeName (hnames.enum h)).brackets_eq
    refine nested_around hname [')'] (by decide) ?_
    simp only [brackets_append, he]
    decide

include hnames hruntime in
theorem nested_readList {name : List Piece} (hname : Nested (name.flatMap Piece.brackets))
    {type : ValueType} (h : type.DeclaredBy schema) :
    Nested ((readList runtime name type).flatMap Piece.brackets) := by
  cases type with
  | scalar s =>
    cases s with
    | string => exact nested_around hname [')'] (by decide) (by decide)
    | bool | int32 =>
      refine nested_around hname [')'] (by decide) ?_
      simp only [brackets_append, hruntime]
      decide
  | enum e =>
    have he := (isPath_of_isTypeName (hnames.enum h)).brackets_eq
    refine nested_around hname [')'] (by decide) ?_
    simp only [brackets_append, he]
    decide

variable {identifier : String} (hidentifier : brackets identifier = [])

include hnames hidentifier in
theorem nested_fillLeaf {name : List Piece} (hname : Nested (name.flatMap Piece.brackets))
    {type : ValueType} (h : type.DeclaredBy schema) :
    Nested (bracketsOf (fillLeaf identifier name type)) := by
  have hvalue := nested_readValue hnames hname h
  have hdefault : Nested (brackets (if type = .scalar .string then
        "defaults.and_then(|d| d." ++ identifier ++ ".as_ref())"
      else "defaults.and_then(|d| d." ++ identifier ++ ")")) := by
    split <;>
      · simp only [brackets_append, hidentifier]
        decide
  have hcopy : Nested (brackets (if type = .scalar .string then "value.clone()" else "value")) := by
    split <;> decide
  rw [nested_iff]
  simp only [fillLeaf, bracketsOf_cons, bracketsOf_nil, brackets_block, brackets_blockOf,
    brackets_text, brackets_close, brackets_deeper, brackets_closeBrace, List.flatMap_append,
    List.flatMap_cons, List.flatMap_nil, brackets_code, brackets_append, hidentifier,
    awaitAll_append, hvalue.awaitAll_eq, hdefault.awaitAll_eq, hcopy.awaitAll_eq]
  decide

include hnames hruntime hidentifier in
theorem nested_fillList {name : List Piece} (hname : Nested (name.flatMap Piece.brackets))
    {type : ValueType} (h : type.DeclaredBy schema) :
    Nested (bracketsOf (fillList runtime identifier name type)) := by
  have hvalues := nested_readList hnames hruntime hname h
  rw [nested_iff]
  simp only [fillList, bracketsOf_cons, bracketsOf_nil, brackets_block, brackets_blockOf,
    brackets_text, brackets_close, brackets_deeper, brackets_closeBrace, List.flatMap_append,
    List.flatMap_cons, List.flatMap_nil, brackets_code, brackets_append, hidentifier,
    awaitAll_append, hvalues.awaitAll_eq]
  decide

include hnames hruntime hfield htype in
theorem nested_fillField : Nested (bracketsOf (fillField runtime field)) := by
  obtain ⟨name, type, doc⟩ := field
  have hidentifier := brackets_toIdentifier hfield
  cases type with
  | plain kind =>
    cases kind with
    | leaf type => exact nested_fillLeaf hnames hidentifier (nested_variableName _) htype
    | list type =>
      exact nested_fillList hnames hruntime hidentifier (nested_variableName _) htype
    | map key value =>
      simp only [fillField, bracketsOf_cons, bracketsOf_nil, brackets_block, brackets_text,
        brackets_closeBrace, brackets_append, hidentifier, (isPath_of_isFieldName hfield).brackets_eq]
      decide
  | message m =>
    have hm := hnames.brackets_message htype
    have hvariable := nested_variableName (Name.toEnvSuffix name ++ "_")
    rw [nested_iff]
    simp only [fillField, overlayOf, bracketsOf_cons, bracketsOf_nil, brackets_block,
      brackets_text, brackets_pieces, brackets_close, List.flatMap_append, List.flatMap_cons,
      List.flatMap_nil, brackets_code, brackets_append, hidentifier, hruntime, hm,
      awaitAll_append, hvariable.awaitAll_eq]
    decide
  | messageList m =>
    simp only [fillField, bracketsOf_cons, bracketsOf_nil, brackets_block, brackets_text,
      brackets_close, brackets_deeper, brackets_closeBrace, brackets_append, hidentifier]
    decide

/-! ## Items of messages -/

variable {decl : MessageDecl} (hname : Name.isTypeName decl.name = true)
  (hfields : ∀ field ∈ decl.fields, Name.isFieldName field.name = true)
  (htypes : ∀ field ∈ decl.fields, field.type.DeclaredBy schema)

include hnames hname hfields htypes in
theorem nested_record : Nested (bracketsOf (record decl)) := by
  have hslots : Nested (bracketsOf (decl.fields.flatMap slot)) :=
    nested_bracketsOf_flatMap fun field hfield =>
      nested_slot hnames (hfields field hfield) (htypes field hfield)
  simp only [record, bracketsOf_append]
  refine hslots.between ['\x7d'] ?_ rfl
  simp only [bracketsOf_docs, bracketsOf_cons, bracketsOf_nil, brackets_text, brackets_block,
    brackets_append, (isPath_of_isTypeName hname).brackets_eq]
  decide

include hnames hname hfields htypes in
theorem nested_recordMethods : Nested (bracketsOf (recordMethods decl)) := by
  have hmethods : Nested (bracketsOf (spaced (decl.fields.map methods))) :=
    nested_spaced (List.forall_mem_map.2 fun field hfield =>
      nested_methods hnames (hfields field hfield) (htypes field hfield))
  simp only [recordMethods, bracketsOf_append]
  refine hmethods.between ['\x7d'] ?_ rfl
  simp only [bracketsOf_cons, bracketsOf_nil, brackets_block, brackets_append,
    (isPath_of_isTypeName hname).brackets_eq]
  decide

include hnames hruntime htypes in
theorem nested_fieldEntries : Nested (bracketsOf (fieldEntries runtime decl.fields)) := by
  have hentries : Nested (bracketsOf (decl.fields.flatMap (fieldEntry runtime))) :=
    nested_bracketsOf_flatMap fun field hfield =>
      nested_fieldEntry hnames (htypes field hfield) hruntime
  rw [fieldEntries]
  split
  · decide
  · simp only [bracketsOf_append]
    exact hentries.between [']'] (by decide) (by decide)

include hnames hruntime htypes in
theorem nested_table : Nested (bracketsOf (table runtime decl)) := by
  have hdoc : Nested (tableLine "doc" (docEntry decl.doc)).brackets :=
    nested_tableLine (by decide) (nested_docEntry decl.doc)
  have hname : Nested (tableLine "name" [.literal decl.name]).brackets :=
    nested_tableLine_literal (by decide) _
  have hentries := nested_fieldEntries hnames hruntime htypes
  rw [nested_iff]
  simp only [table, bracketsOf_append, bracketsOf_cons, bracketsOf_nil, brackets_block,
    brackets_close, brackets_append, hruntime, awaitAll_append, hname.awaitAll_eq,
    hdoc.awaitAll_eq, hentries.awaitAll_eq]
  decide

include hnames hruntime hfields htypes in
theorem nested_routine : Nested (bracketsOf (routine runtime decl)) := by
  have hparameter : ∀ used, brackets (parameter used "env") = [] ∧
      brackets (parameter used "prefix") = [] ∧ brackets (parameter used "defaults") = [] := by
    decide
  have hbody : Nested (bracketsOf (spaced (decl.fields.map (fillField runtime)))) :=
    nested_spaced (List.forall_mem_map.2 fun field hfield =>
      nested_fillField hnames (hfields field hfield) (htypes field hfield) hruntime)
  simp only [routine, bracketsOf_append]
  refine hbody.between ['\x7d'] ?_ rfl
  simp only [bracketsOf_cons, bracketsOf_nil, brackets_block, brackets_append, hparameter, hruntime]
  decide

include hnames hruntime hname hfields htypes in
theorem nested_overlay : Nested (bracketsOf (overlay runtime decl)) := by
  have htable := nested_table hnames hruntime htypes
  have hroutine := nested_routine hnames hruntime hfields htypes
  rw [nested_iff]
  simp only [overlay, bracketsOf_append, bracketsOf_cons, bracketsOf_nil, brackets_block,
    brackets_gap, brackets_closeBrace, brackets_append, hruntime,
    (isPath_of_isTypeName hname).brackets_eq, awaitAll_append, htable.awaitAll_eq,
    hroutine.awaitAll_eq]
  decide

end

end LayeredConfig.Code
