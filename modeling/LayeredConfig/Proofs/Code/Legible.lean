import LayeredConfig.Proofs.Code.Identifier
import LayeredConfig.Proofs.Code.Lexeme

/-!
# Generated code is legible

The lines of generated code are read as what they stand for, if the names in them are
valid and the path of the runtime is plain.  This is shown part by part, from single
lines to whole modules (`legibleBut_moduleCode`).  Left aside are the comments whose
text comes from outside: the header, which names a file, and the documentation.
-/

namespace LayeredConfig

/-! ## Types of fields -/

def ValueType.DeclaredBy (schema : Schema) : ValueType → Prop
  | scalar _ => True
  | enum e => ∃ decl ∈ schema.enums, decl.type = e

/-- A type that speaks of no enums and messages but those of the schema. -/
def FieldType.DeclaredBy (schema : Schema) : FieldType → Prop
  | plain (.leaf type) | plain (.list type) => type.DeclaredBy schema
  | plain (.map _ _) => True
  | message name | messageList name => ∃ decl ∈ schema.messages, decl.name = name

namespace Schema

variable {raw : RawSchema} {schema : Schema}

theorem declaredBy_of_denotes (h : raw.ResolvesTo schema) {text : List Char} {type : FieldType}
    (htype : FieldType.Denotes raw.Declares text type) : type.DeclaredBy schema := by
  have henum : ∀ {name e}, raw.Declares name (.enum e) → ∃ decl ∈ schema.enums, decl.type = e := by
    rintro name e (⟨hsource, he⟩ | _)
    obtain ⟨decl, hdecl, hres⟩ := exists_of_mem_left h.enums hsource
    exact ⟨decl, hdecl, hres.type.unique he⟩
  have hmessage : ∀ {name}, raw.Declares name .message →
      ∃ decl ∈ schema.messages, decl.name = name := by
    rintro name (_ | hsource)
    obtain ⟨decl, hdecl, hres⟩ := exists_of_mem_left h.messages hsource
    exact ⟨decl, hdecl, hres.name⟩
  cases htype with
  | single hname _ =>
    cases hname with
    | scalar s => exact trivial
    | enum hdeclared => exact henum hdeclared
    | message hdeclared => exact hmessage hdeclared
  | repeated hname _ _ =>
    cases hname with
    | scalar s => exact trivial
    | enum hdeclared => exact henum hdeclared
    | message hdeclared => exact hmessage hdeclared
  | map key value _ _ _ _ => exact trivial

theorem declaredBy_of_resolve (h : resolve raw = .ok schema) {decl : MessageDecl}
    (hdecl : decl ∈ schema.messages) {field : FieldDecl} (hfield : field ∈ decl.fields) :
    field.type.DeclaredBy schema := by
  obtain ⟨-, hres⟩ := resolve_eq_ok_iff.1 h
  obtain ⟨source, -, hmessage⟩ := exists_of_mem_right hres.messages hdecl
  obtain ⟨rawField, -, hfieldRes⟩ := exists_of_mem_right hmessage.fields hfield
  exact declaredBy_of_denotes hres hfieldRes.type

end Schema

namespace Code

open Step

/-! ## Names in code -/

theorem plain_of_isTypeName {name : String} (h : Name.isTypeName name = true) : Plain name :=
  plain_of_isAlphanum fun _ hc => Or.inl ((FieldType.word_of_isTypeName h).isAlphanum _ hc)

theorem plain_of_isFieldName {name : String} (h : Name.isFieldName name = true) : Plain name :=
  plain_of_isAlphanum (isAlphanum_of_isWord (isWord_of_isFieldName h))

theorem unbroken_of_isTypeName {name : String} (h : Name.isTypeName name = true) :
    Unbroken name :=
  ⟨(FieldType.word_of_isTypeName h).not_mem (by decide),
    (FieldType.word_of_isTypeName h).not_mem (by decide)⟩

theorem unbroken_of_isFieldName {name : String} (h : Name.isFieldName name = true) :
    Unbroken name :=
  ⟨Name.not_mem_of_isFieldName h (by decide) (by decide) (by decide),
    Name.not_mem_of_isFieldName h (by decide) (by decide) (by decide)⟩

theorem plain_toIdentifier {name : String} (h : Name.isFieldName name = true) :
    Plain (Name.toIdentifier name) := by
  rw [Name.toIdentifier]
  split
  · exact plain_append_iff.2 ⟨by decide, plain_of_isFieldName h⟩
  · exact plain_of_isFieldName h

theorem isAlphanum_of_mem_toVariant {value : String} (h : Name.isEnumValueName value = true)
    {c : Char} (hc : c ∈ (Name.toVariant value).toList) : c.isAlphanum := by
  obtain ⟨first, cs, hname, -, hchars, -⟩ := Name.map_toLower_of_isEnumValueName h
  rw [Name.toVariant, String.toList_ofList, hname] at hc
  exact Name.isAlphanum_of_mem_publicName hchars hc

theorem not_mem_toVariant {value : String} (h : Name.isEnumValueName value = true) {c : Char}
    (hc : c.isAlphanum = false) : c ∉ (Name.toVariant value).toList :=
  fun hmem => Bool.false_ne_true (hc.symm.trans (isAlphanum_of_mem_toVariant h hmem))

theorem plain_toVariant {value : String} (h : Name.isEnumValueName value = true) :
    Plain (Name.toVariant value) :=
  plain_of_isAlphanum fun _ hc => Or.inl (isAlphanum_of_mem_toVariant h hc)

structure ValidNames (schema : Schema) : Prop where
  enums : ∀ decl ∈ schema.enums, Name.isTypeName decl.type.name = true
  values : ∀ decl ∈ schema.enums, ∀ value ∈ decl.type.names, Name.isEnumValueName value = true
  messages : ∀ decl ∈ schema.messages, Name.isTypeName decl.name = true
  fields : ∀ decl ∈ schema.messages, ∀ field ∈ decl.fields, Name.isFieldName field.name = true
  types : ∀ decl ∈ schema.messages, ∀ field ∈ decl.fields, field.type.DeclaredBy schema

theorem validNames_of_resolve {raw : RawSchema} {schema : Schema}
    (h : Schema.resolve raw = .ok schema) : ValidNames schema := by
  obtain ⟨henums, hmessages⟩ := isTypeName_of_resolve h
  exact ⟨henums, fun decl hdecl => (values_of_resolve h hdecl).1, hmessages,
    fun decl hdecl => (Schema.wellNamed_of_resolve h hdecl).valid,
    fun decl hdecl field hfield => Schema.declaredBy_of_resolve h hdecl hfield⟩

/-! ## Lines of code -/

theorem ReadsCode.legible {s : String} (h : ReadsCode s) :
    (text s).Legible ∧ (block s).Legible ∧ (close s).Legible :=
  ⟨h.pieces.legible, h.pieces.legible, h.pieces.legible⟩

theorem legible_around {start rest : String} (hstart : ReadsOpen start) (value : String)
    (hrest : Plain rest) : (pieces [.code start, .literal value, .code rest]).Legible :=
  ((hstart.literal value).append hrest.readsCode.pieces).legible

theorem legible_text {s : String} (h : Plain s) : (text s).Legible :=
  h.readsCode.legible.1

theorem legible_block {s : String} (h : Plain s) : (block s).Legible :=
  h.readsCode.legible.2.1

theorem legible_close {s : String} (h : Plain s) : (close s).Legible :=
  h.readsCode.legible.2.2

theorem legible_closeBrace : closeBrace.Legible := legible_close (by decide)

theorem legible_gap : gap.Legible := trivial

theorem legible_doc {s : String} (h : Unbroken s) : (doc s).Legible := h

/-- The steps are legible, apart from some comments. -/
def LegibleBut (comments steps : List Step) : Prop :=
  ∀ step ∈ steps, step ∈ comments ∨ step.Legible

section

variable {comments : List Step}

theorem legibleBut_of_legible {steps : List Step} (h : ∀ step ∈ steps, step.Legible) :
    LegibleBut comments steps := fun step hstep => Or.inr (h step hstep)

theorem legibleBut_of_subset {steps : List Step} (h : steps ⊆ comments) :
    LegibleBut comments steps := fun _ hstep => Or.inl (h hstep)

theorem legibleBut_nil : LegibleBut comments [] := fun _ h => absurd h List.not_mem_nil

theorem legibleBut_cons_iff {step : Step} {steps : List Step} :
    LegibleBut comments (step :: steps) ↔
      (step ∈ comments ∨ step.Legible) ∧ LegibleBut comments steps :=
  List.forall_mem_cons

theorem legibleBut_append_iff {steps more : List Step} :
    LegibleBut comments (steps ++ more) ↔ LegibleBut comments steps ∧ LegibleBut comments more :=
  List.forall_mem_append

theorem legibleBut_flatMap {α : Type} {items : List α} {f : α → List Step}
    (h : ∀ a ∈ items, LegibleBut comments (f a)) : LegibleBut comments (items.flatMap f) := by
  intro step hstep
  obtain ⟨a, ha, hstep⟩ := List.mem_flatMap.1 hstep
  exact h a ha step hstep

theorem legible_spaced {groups : List (List Step)}
    (h : ∀ group ∈ groups, ∀ step ∈ group, step.Legible) :
    ∀ step ∈ spaced groups, step.Legible := by
  induction groups with
  | nil => exact fun _ h => absurd h List.not_mem_nil
  | cons group groups ih =>
    obtain ⟨hgroup, hgroups⟩ := List.forall_mem_cons.1 h
    cases groups with
    | nil => exact hgroup
    | cons next groups =>
      rw [spaced, List.forall_mem_append, List.forall_mem_append]
      exact ⟨⟨hgroup, List.forall_mem_singleton.2 legible_gap⟩, ih hgroups⟩

end

/-! ## Enums -/

section

variable {comments : List Step} {decl : EnumDecl}

def renameLine (value : String) : List Piece :=
  [.code "#[serde(rename = ", .literal value, .code ")]"]

theorem legible_renameLine (value : String) : (Line.code (renameLine value)).Legible := by
  have hopen : ReadsOpen "#[serde(rename = " := readsOpen_of_reads (by decide) rfl rfl
  exact legible_around hopen value (by decide)

theorem legibleBut_variants {values : List String}
    (h : ∀ value ∈ values, Plain (Name.toVariant value)) :
    LegibleBut comments (variants values) := by
  refine legibleBut_flatMap fun value hvalue => ?_
  have hvariant : Plain (Name.toVariant value ++ ",") :=
    plain_append_iff.2 ⟨h value hvalue, by decide⟩
  simp only [legibleBut_cons_iff]
  exact ⟨Or.inr (legible_renameLine value), Or.inr (legible_text hvariant),
    legibleBut_nil⟩

theorem legibleBut_enumType (hdocs : docs decl.doc ⊆ comments) (hname : Plain decl.type.name)
    (hvalues : ∀ value ∈ decl.type.names, Plain (Name.toVariant value)) :
    LegibleBut comments (enumType decl) := by
  simp only [enumType, legibleBut_append_iff, legibleBut_cons_iff, legibleBut_nil, and_true]
  refine ⟨⟨⟨legibleBut_of_subset hdocs, Or.inr (legible_text ?_), Or.inr (legible_block ?_),
    Or.inr (legible_text ?_)⟩, legibleBut_variants hvalues⟩, Or.inr legible_closeBrace⟩
  · decide
  · simp +decide [hname]
  · decide

def namesLine (values : List String) : List Piece :=
  [.code "pub const NAMES: &'static [&'static str] = &["] ++ literals values ++ [.code "];"]

def shownLine (value : String) : List Piece :=
  [.code ("Self::" ++ Name.toVariant value ++ " => "), .literal value, .code ","]

def parsedLine (value : String) : List Piece :=
  [.literal value, .code (" => Some(Self::" ++ Name.toVariant value ++ "),")]

theorem enumNames_eq (decl : EnumDecl) : enumNames decl =
    [block ("impl " ++ decl.type.name ++ " \x7b"), doc "Symbolic names in declaration order.",
      pieces (namesLine decl.type.names), gap,
      doc "Symbolic name used in config files and env vars.",
      block "pub fn as_str_name(&self) -> &'static str \x7b", block "match self \x7b"] ++
    decl.type.names.map (fun value => pieces (shownLine value)) ++
    [closeBrace, closeBrace, gap, doc "Parse a symbolic name. Unknown names yield `None`.",
      block "pub fn from_str_name(value: &str) -> Option<Self> \x7b", block "match value \x7b"] ++
    decl.type.names.map (fun value => pieces (parsedLine value)) ++
    [text "_ => None,", closeBrace, closeBrace, closeBrace] := rfl

theorem legible_namesLine (values : List String) : (Line.code (namesLine values)).Legible := by
  have hopen : ReadsOpen "pub const NAMES: &'static [&'static str] = &[" :=
    readsOpen_of_reads (by decide +kernel) (by decide +kernel) (by decide +kernel)
  have hclose : Plain "];" := by decide
  exact ((hopen.literals values).append hclose.readsCode.pieces).legible

theorem legible_shownLine {value : String} (h : Plain (Name.toVariant value)) :
    (Line.code (shownLine value)).Legible := by
  have hself : Plain ("Self::" ++ Name.toVariant value) := by simp +decide [h]
  have harrow : ReadsOpen " => " := readsOpen_of_reads (by decide) rfl rfl
  exact legible_around (hself.readsCode.append_open harrow) value (by decide)

theorem legible_parsedLine {value : String} (h : Plain (Name.toVariant value)) :
    (Line.code (parsedLine value)).Legible := by
  have hsome : Plain (" => Some(Self::" ++ Name.toVariant value ++ "),") := by simp +decide [h]
  obtain ⟨hline, hreads⟩ := hsome.readsCode.pieces
  obtain ⟨word, hrest⟩ := hreads true
  refine ⟨?_, word, (reads_quote value).append hrest⟩
  rw [parsedLine, List.flatMap_cons, List.mem_append, not_or]
  exact ⟨not_mem_quote value (Or.inl rfl), hline⟩

theorem legible_enumNames (hname : Plain decl.type.name)
    (hvalues : ∀ value ∈ decl.type.names, Plain (Name.toVariant value)) :
    ∀ step ∈ enumNames decl, step.Legible := by
  have hshow : ReadsOpen "pub fn as_str_name(&self) -> &'static str \x7b" :=
    readsOpen_of_reads (by decide +kernel) (by decide +kernel) (by decide +kernel)
  simp only [enumNames_eq, List.forall_mem_append, List.forall_mem_cons, List.forall_mem_map,
    List.not_mem_nil, false_imp_iff, implies_true, and_true, and_assoc]
  refine ⟨legible_block ?_, legible_doc (by decide), legible_namesLine _, legible_gap,
    legible_doc (by decide), hshow.code.legible.2.1, legible_block (by decide),
    fun value hvalue => legible_shownLine (hvalues value hvalue), legible_closeBrace,
    legible_closeBrace, legible_gap, legible_doc (by decide), legible_block (by decide),
    legible_block (by decide), fun value hvalue => legible_parsedLine (hvalues value hvalue),
    legible_text (by decide), legible_closeBrace, legible_closeBrace, legible_closeBrace⟩
  simp +decide [hname]

theorem legible_enumDisplay (hname : Plain decl.type.name) :
    ∀ step ∈ enumDisplay decl, step.Legible := by
  have hformat : ReadsOpen
      "fn fmt(&self, f: &mut ::std::fmt::Formatter<'_>) -> ::std::fmt::Result \x7b" :=
    readsOpen_of_reads (by decide +kernel) (by decide +kernel) (by decide +kernel)
  simp only [enumDisplay, List.forall_mem_cons, List.not_mem_nil, false_imp_iff, implies_true,
    and_true]
  refine ⟨legible_block ?_, hformat.code.legible.2.1, legible_text (by decide), legible_closeBrace,
    legible_closeBrace⟩
  simp +decide [hname]

theorem legibleBut_enumCode (hdocs : docs decl.doc ⊆ comments) (hname : Plain decl.type.name)
    (hvalues : ∀ value ∈ decl.type.names, Plain (Name.toVariant value)) :
    LegibleBut comments (enumCode decl) := by
  simp only [enumCode, legibleBut_append_iff, legibleBut_cons_iff, legibleBut_nil, and_true]
  exact ⟨⟨⟨⟨legibleBut_enumType hdocs hname hvalues, Or.inr legible_gap⟩,
    legibleBut_of_legible (legible_enumNames hname hvalues)⟩, Or.inr legible_gap⟩,
    legibleBut_of_legible (legible_enumDisplay hname)⟩

end

/-! ## Messages -/

section

variable {schema : Schema} (hnames : ValidNames schema) {runtime : String}
  (hruntime : Plain runtime)

include hnames in
theorem ValidNames.enum {e : EnumType} (h : (ValueType.enum e).DeclaredBy schema) :
    Name.isTypeName e.name = true := by
  obtain ⟨decl, hdecl, rfl⟩ := h
  exact hnames.enums decl hdecl

include hnames in
theorem ValidNames.message {name : String} (h : ∃ decl ∈ schema.messages, decl.name = name) :
    Name.isTypeName name = true := by
  obtain ⟨decl, hdecl, rfl⟩ := h
  exact hnames.messages decl hdecl

include hnames in
theorem ValidNames.plain_codeType {type : ValueType} (h : type.DeclaredBy schema) :
    Plain type.codeType := by
  cases type with
  | scalar s => cases s <;> decide
  | enum e => exact plain_of_isTypeName (hnames.enum h)

include hruntime in
theorem plain_scalarEntry (s : Scalar) : Plain (scalarEntry runtime s) := by
  have hstart : Plain (runtime ++ "::overlay::ValueType::") :=
    plain_append_iff.2 ⟨hruntime, by decide⟩
  cases s <;> exact plain_append_iff.2 ⟨hstart, by decide⟩

theorem plain_mapOf (key value : Scalar) : Plain (mapOf key value) := by
  cases key <;> cases value <;> decide

include hnames in
theorem ValidNames.plain_slotType {type : FieldType} (h : type.DeclaredBy schema) :
    Plain (slotType type) := by
  cases type with
  | plain kind =>
    cases kind with
    | leaf type | list type => simp +decide [slotType, hnames.plain_codeType h]
    | map key value => exact plain_mapOf key value
  | message name | messageList name =>
    simp +decide [slotType, plain_of_isTypeName (hnames.message h)]

/-! ### Records -/

variable {comments : List Step} {field : FieldDecl} (hfield : Name.isFieldName field.name = true)
  (htype : field.type.DeclaredBy schema)

theorem legible_slotAttribute (field : FieldDecl) : (slotAttribute field).Legible := by
  have hskip : ReadsPieces [.code "skip_serializing_if = ", .literal (unsetTest field.type),
      .code ")]"] := by
    have hopen : ReadsOpen "skip_serializing_if = " := readsOpen_of_reads (by decide) rfl rfl
    have hclose : Plain ")]" := by decide
    exact (hopen.literal _).append hclose.readsCode.pieces
  rw [slotAttribute]
  split
  · have hstart : Plain "#[serde(" := by decide
    exact (hstart.readsCode.pieces.append hskip).legible
  · have hopen : ReadsOpen "#[serde(alias = " := readsOpen_of_reads (by decide) rfl rfl
    have hcomma : Plain ", " := by decide
    exact ((hopen.literal _).append (hcomma.readsCode.pieces.append hskip)).legible

include hnames hfield htype in
theorem legibleBut_slot (hdocs : docs field.doc ⊆ comments) :
    LegibleBut comments (slot field) := by
  simp only [slot, legibleBut_append_iff, legibleBut_cons_iff, legibleBut_nil, and_true]
  refine ⟨legibleBut_of_subset hdocs, Or.inr (legible_slotAttribute field),
    Or.inr (legible_text ?_)⟩
  simp +decide [plain_toIdentifier hfield, hnames.plain_slotType htype]

theorem legible_reader {doc identifier type : String} {body : List Piece} (hdoc : Unbroken doc)
    (hidentifier : Plain identifier) (htype : Plain type) (hbody : ReadsPieces body) :
    ∀ step ∈ reader doc identifier type body, step.Legible := by
  simp only [reader, List.forall_mem_cons, List.not_mem_nil, false_imp_iff, implies_true, and_true]
  refine ⟨legible_doc hdoc, legible_block ?_, hbody.legible, legible_closeBrace⟩
  simp +decide [hidentifier, htype]

include hnames hfield htype in
theorem legible_methods : ∀ step ∈ methods field, step.Legible := by
  obtain ⟨name, type, doc⟩ := field
  have hidentifier := plain_toIdentifier hfield
  have hname := unbroken_of_isFieldName hfield
  have hself : Plain ("self." ++ Name.toIdentifier name) := by simp +decide [hidentifier]
  have href : Plain ("&self." ++ Name.toIdentifier name) := by simp +decide [hidentifier]
  have hunset : Unbroken ("Returns " ++ ("`" ++ name ++ "`") ++ "; empty when unset.") := by
    simp +decide [unbroken_append_iff, hname]
  cases type with
  | plain kind =>
    cases kind with
    | leaf type =>
      cases type with
      | scalar s =>
        cases s with
        | string =>
          have hopen : ReadsOpen ("self." ++ Name.toIdentifier name ++ ".as_deref().unwrap_or(") :=
            hself.readsCode.append_open (readsOpen_of_reads (by decide) rfl rfl)
          have hclose : Plain ")" := by decide
          refine legible_reader ?_ hidentifier (by decide)
            ((hopen.literal "").append hclose.readsCode.pieces)
          simp +decide [unbroken_append_iff, hname]
        | bool =>
          refine legible_reader ?_ hidentifier (by decide) (Plain.readsCode ?_).pieces
          · simp +decide [unbroken_append_iff, hname]
          · exact plain_append_iff.2 ⟨hself, by decide⟩
        | int32 =>
          refine legible_reader ?_ hidentifier (by decide) (Plain.readsCode ?_).pieces
          · simp +decide [unbroken_append_iff, hname]
          · exact plain_append_iff.2 ⟨hself, by decide⟩
      | enum e =>
        have he := hnames.enum htype
        refine legible_reader ?_ hidentifier (plain_of_isTypeName he) (Plain.readsCode ?_).pieces
        · simp +decide [unbroken_append_iff, hname, unbroken_of_isTypeName he]
        · exact plain_append_iff.2 ⟨hself, by decide⟩
    | list type =>
      refine legible_reader hunset hidentifier ?_ href.readsCode.pieces
      simp +decide [hnames.plain_codeType htype]
    | map key value =>
      have hmap := plain_mapOf key value
      have hsetter : Plain ("pub fn put_" ++ name ++ "(&mut self, values: &" ++ mapOf key value ++
          ") \x7b") := by
        simp +decide [plain_of_isFieldName hfield, hmap]
      have hentry : Plain ("self." ++ Name.toIdentifier name ++ ".entry(" ++ copyOf "key" key ++
          ").or_insert_with(|| " ++ copyOf "value" value ++ ");") := by
        have hkey : Plain (copyOf "key" key) := by cases key <;> decide
        have hvalue : Plain (copyOf "value" value) := by cases value <;> decide
        simp +decide [hidentifier, hkey, hvalue]
      refine List.forall_mem_append.2
        ⟨legible_reader hunset hidentifier ?_ href.readsCode.pieces, ?_⟩
      · simp +decide [hmap]
      · simp only [List.forall_mem_cons, List.not_mem_nil, false_imp_iff, implies_true, and_true]
        refine ⟨legible_gap, legible_doc ?_, legible_block hsetter, legible_block (by decide),
          legible_text hentry, legible_closeBrace, legible_closeBrace⟩
        simp +decide [unbroken_append_iff, hname]
  | message m =>
    have hm := hnames.message htype
    refine legible_reader ?_ hidentifier ?_ (Plain.readsCode ?_).pieces
    · simp +decide [unbroken_append_iff, hname]
    · simp +decide [plain_of_isTypeName hm]
    · exact plain_append_iff.2 ⟨hself, by decide⟩
  | messageList m =>
    refine legible_reader hunset hidentifier ?_ href.readsCode.pieces
    simp +decide [plain_of_isTypeName (hnames.message htype)]

/-! ### Overlays -/

include hnames hruntime in
theorem readsPieces_typeEntry {type : ValueType} (h : type.DeclaredBy schema) :
    ReadsPieces (typeEntry runtime type) := by
  cases type with
  | scalar s =>
    have hscalar := plain_scalarEntry hruntime s
    exact hscalar.readsCode.pieces
  | enum e =>
    have hopen : ReadsOpen (runtime ++ "::overlay::ValueType::Enum \x7b name: ") :=
      hruntime.readsCode.append_open (readsOpen_of_reads (by decide) rfl rfl)
    have hvalues : Plain (", values: " ++ e.name ++ "::NAMES \x7d") := by
      simp +decide [plain_of_isTypeName (hnames.enum h)]
    exact (hopen.literal e.name).append hvalues.readsCode.pieces

include hnames hruntime in
theorem readsPieces_kindEntry {type : FieldType} (h : type.DeclaredBy schema) :
    ReadsPieces (kindEntry runtime type) := by
  have hclose : Plain ")" := by decide
  cases type with
  | plain kind =>
    cases kind with
    | leaf type =>
      have hopen : Plain (runtime ++ "::overlay::FieldKind::Leaf(") :=
        plain_append_iff.2 ⟨hruntime, by decide⟩
      exact (hopen.readsCode.pieces.append (readsPieces_typeEntry hnames hruntime h)).append
        hclose.readsCode.pieces
    | list type =>
      have hopen : Plain (runtime ++ "::overlay::FieldKind::List(") :=
        plain_append_iff.2 ⟨hruntime, by decide⟩
      exact (hopen.readsCode.pieces.append (readsPieces_typeEntry hnames hruntime h)).append
        hclose.readsCode.pieces
    | map key value =>
      refine (Plain.readsCode ?_).pieces
      simp +decide [hruntime, plain_scalarEntry]
  | message m | messageList m =>
    refine (Plain.readsCode ?_).pieces
    simp +decide [overlayOf, hruntime, plain_of_isTypeName (hnames.message h)]

theorem readsPieces_docEntry (doc : String) : ReadsPieces (docEntry doc) := by
  have hopen : ReadsOpen "&[" := readsOpen_of_reads (by decide) rfl rfl
  have hclose : Plain "]" := by decide
  exact (hopen.literals (docLines doc)).append hclose.readsCode.pieces

theorem readsOpen_tableLine {name : String} (h : Plain name) : ReadsOpen (name ++ ": ") :=
  h.readsCode.append_open (readsOpen_of_reads (by decide) rfl rfl)

theorem legible_tableLine {name : String} (h : Plain name) {value : List Piece}
    (hvalue : ReadsPieces value) : (tableLine name value).Legible := by
  have hclose : Plain "," := by decide
  exact (((readsOpen_tableLine h).code.pieces.append hvalue).append
    hclose.readsCode.pieces).legible

theorem legible_tableLine_literal {name : String} (h : Plain name) (value : String) :
    (tableLine name [.literal value]).Legible :=
  legible_around (readsOpen_tableLine h) value (by decide)

include hnames hruntime htype in
theorem legible_fieldEntry : ∀ step ∈ fieldEntry runtime field, step.Legible := by
  simp only [fieldEntry, List.forall_mem_cons, List.not_mem_nil, false_imp_iff, implies_true,
    and_true]
  refine ⟨legible_block (plain_append_iff.2 ⟨hruntime, by decide⟩),
    legible_tableLine_literal (by decide) _, legible_tableLine_literal (by decide) _,
    legible_tableLine_literal (by decide) _,
    legible_tableLine (by decide) (readsPieces_docEntry field.doc),
    legible_tableLine (by decide) (readsPieces_kindEntry hnames hruntime htype),
    legible_close (by decide)⟩

variable {decl : MessageDecl} (hname : Name.isTypeName decl.name = true)
  (hfields : ∀ field ∈ decl.fields, Name.isFieldName field.name = true)
  (htypes : ∀ field ∈ decl.fields, field.type.DeclaredBy schema)

include hnames hruntime htypes in
theorem legible_table : ∀ step ∈ table runtime decl, step.Legible := by
  have hentries : ∀ step ∈ fieldEntries runtime decl.fields, step.Legible := by
    rw [fieldEntries]
    split
    · exact List.forall_mem_singleton.2 (legible_text (by decide))
    · simp only [List.forall_mem_append, List.forall_mem_singleton, List.forall_mem_flatMap]
      exact ⟨⟨legible_block (by decide), fun field hfield =>
        legible_fieldEntry hnames hruntime (htypes field hfield)⟩, legible_close (by decide)⟩
  simp only [table, List.forall_mem_append, List.forall_mem_cons, List.not_mem_nil, false_imp_iff,
    implies_true, and_true]
  refine ⟨⟨⟨legible_block ?_, legible_tableLine_literal (by decide) _,
    legible_tableLine (by decide) (readsPieces_docEntry decl.doc)⟩, hentries⟩,
    legible_close (by decide)⟩
  simp +decide [hruntime]

theorem readsPieces_variableName (rest : String) : ReadsPieces (variableName rest) := by
  have hopen : ReadsOpen "&format!(" := readsOpen_of_reads (by decide) rfl rfl
  have hclose : Plain ")" := by decide
  exact (hopen.literal _).append hclose.readsCode.pieces

theorem ReadsPieces.between {start rest : String} {inner : List Piece} (h : ReadsPieces inner)
    (hstart : Plain start) (hrest : Plain rest) :
    ReadsPieces ([Piece.code start] ++ inner ++ [Piece.code rest]) :=
  (hstart.readsCode.pieces.append h).append hrest.readsCode.pieces

include hnames in
theorem readsPieces_readValue {name : List Piece} (h : ReadsPieces name) {type : ValueType}
    (hdeclared : type.DeclaredBy schema) : ReadsPieces (readValue name type) := by
  cases type with
  | scalar s => cases s <;> exact h.between (by decide) (by decide)
  | enum e =>
    refine h.between (by decide) ?_
    simp +decide [plain_of_isTypeName (hnames.enum hdeclared)]

include hnames hruntime in
theorem readsPieces_readList {name : List Piece} (h : ReadsPieces name) {type : ValueType}
    (hdeclared : type.DeclaredBy schema) : ReadsPieces (readList runtime name type) := by
  cases type with
  | scalar s =>
    cases s with
    | string => exact h.between (by decide) (by decide)
    | bool | int32 => exact h.between (by decide) (by simp +decide [hruntime])
  | enum e =>
    refine h.between (by decide) ?_
    simp +decide [plain_of_isTypeName (hnames.enum hdeclared)]

include hnames in
theorem legible_fillLeaf {identifier : String} (hidentifier : Plain identifier) (rest : String)
    {type : ValueType} (hdeclared : type.DeclaredBy schema) :
    ∀ step ∈ fillLeaf identifier (variableName rest) type, step.Legible := by
  have hvalue := readsPieces_readValue hnames (readsPieces_variableName rest) hdeclared
  have hdefault : Plain (if type = .scalar .string then
        "defaults.and_then(|d| d." ++ identifier ++ ".as_ref())"
      else "defaults.and_then(|d| d." ++ identifier ++ ")") := by
    split <;> simp +decide [hidentifier]
  have hcopy : Plain (if type = .scalar .string then "value.clone()" else "value") := by
    split <;> decide
  simp only [fillLeaf, List.forall_mem_cons, List.not_mem_nil, false_imp_iff, implies_true,
    and_true]
  refine ⟨legible_block ?_, (hvalue.between (by decide) (by decide)).legible, legible_text ?_,
    legible_close ?_, trivial, legible_text ?_, legible_closeBrace, legible_closeBrace⟩
  · simp +decide [hidentifier]
  · simp +decide [hidentifier]
  · exact plain_append_iff.2 ⟨plain_append_iff.2 ⟨by decide, hdefault⟩, by decide⟩
  · exact plain_append_iff.2 ⟨plain_append_iff.2 ⟨by simp +decide [hidentifier], hcopy⟩, by decide⟩

include hnames hruntime in
theorem legible_fillList {identifier : String} (hidentifier : Plain identifier) (rest : String)
    {type : ValueType} (hdeclared : type.DeclaredBy schema) :
    ∀ step ∈ fillList runtime identifier (variableName rest) type, step.Legible := by
  have hvalues := readsPieces_readList hnames hruntime (readsPieces_variableName rest) hdeclared
  simp only [fillList, List.forall_mem_cons, List.not_mem_nil, false_imp_iff, implies_true,
    and_true]
  refine ⟨legible_block ?_, (hvalues.between (by decide) (by decide)).legible, legible_text ?_,
    legible_close (by decide), trivial, legible_text ?_, legible_closeBrace, legible_closeBrace⟩
  · simp +decide [hidentifier]
  · simp +decide [hidentifier]
  · simp +decide [hidentifier]

include hnames hruntime hfield htype in
theorem legible_fillField : ∀ step ∈ fillField runtime field, step.Legible := by
  obtain ⟨name, type, doc⟩ := field
  have hidentifier := plain_toIdentifier hfield
  cases type with
  | plain kind =>
    cases kind with
    | leaf type => exact legible_fillLeaf hnames hidentifier _ htype
    | list type => exact legible_fillList hnames hruntime hidentifier _ htype
    | map key value =>
      simp only [fillField, List.forall_mem_cons, List.not_mem_nil, false_imp_iff, implies_true,
        and_true]
      refine ⟨legible_block (by decide), legible_text ?_, legible_closeBrace⟩
      simp +decide [plain_of_isFieldName hfield, hidentifier]
  | message m =>
    simp only [fillField, List.forall_mem_cons, List.not_mem_nil, false_imp_iff, implies_true,
      and_true]
    have hvariable := readsPieces_variableName (Name.toEnvSuffix name ++ "_")
    have hcomma : Plain "," := by decide
    refine ⟨legible_block ?_, legible_text ?_, legible_text (by decide),
      (hvariable.append hcomma.readsCode.pieces).legible, legible_text ?_,
      legible_close (by decide)⟩
    · simp +decide [overlayOf, hruntime, plain_of_isTypeName (hnames.message htype)]
    · simp +decide [hidentifier]
    · simp +decide [hidentifier]
  | messageList m =>
    simp only [fillField, List.forall_mem_cons, List.not_mem_nil, false_imp_iff, implies_true,
      and_true]
    refine ⟨legible_block ?_, legible_text (by decide), legible_close (by decide), trivial,
      legible_text ?_, legible_closeBrace⟩
    · simp +decide [hidentifier]
    · simp +decide [hidentifier]

include hruntime hnames hfields htypes in
theorem legible_routine : ∀ step ∈ routine runtime decl, step.Legible := by
  have hparameter : ∀ used, Plain (parameter used "env") ∧ Plain (parameter used "prefix") ∧
      Plain (parameter used "defaults") := by
    intro used
    cases used <;> decide
  simp only [routine, List.forall_mem_append, List.forall_mem_singleton]
  refine ⟨⟨legible_block ?_, legible_spaced (List.forall_mem_map.2 fun field hfield =>
    legible_fillField hnames hruntime (hfields field hfield) (htypes field hfield))⟩,
    legible_closeBrace⟩
  simp +decide [hparameter, hruntime]

include hruntime hnames hname hfields htypes in
theorem legible_overlay : ∀ step ∈ overlay runtime decl, step.Legible := by
  simp only [overlay, List.forall_mem_append, List.forall_mem_singleton]
  refine ⟨⟨⟨⟨legible_block ?_, legible_table hnames hruntime htypes⟩, legible_gap⟩,
    legible_routine hnames hruntime hfields htypes⟩, legible_closeBrace⟩
  simp +decide [hruntime, plain_of_isTypeName hname]

include hnames hname hfields htypes in
theorem legible_recordMethods : ∀ step ∈ recordMethods decl, step.Legible := by
  simp only [recordMethods, List.forall_mem_append, List.forall_mem_singleton]
  refine ⟨⟨legible_block ?_, legible_spaced (List.forall_mem_map.2 fun field hfield =>
    legible_methods hnames (hfields field hfield) (htypes field hfield))⟩, legible_closeBrace⟩
  simp +decide [plain_of_isTypeName hname]

include hnames hname hfields htypes in
theorem legibleBut_record (hdoc : docs decl.doc ⊆ comments)
    (hdocs : ∀ field ∈ decl.fields, docs field.doc ⊆ comments) :
    LegibleBut comments (record decl) := by
  simp only [record, legibleBut_append_iff, legibleBut_cons_iff, legibleBut_nil, and_true]
  refine ⟨⟨⟨legibleBut_of_subset hdoc, Or.inr (legible_text (by decide)),
    Or.inr (legible_text (by decide)), Or.inr (legible_block ?_)⟩,
    legibleBut_flatMap fun field hfield =>
      legibleBut_slot hnames (hfields field hfield) (htypes field hfield) (hdocs field hfield)⟩,
    Or.inr legible_closeBrace⟩
  simp +decide [plain_of_isTypeName hname]

include hnames hruntime hname hfields htypes in
theorem legibleBut_messageCode (hdoc : docs decl.doc ⊆ comments)
    (hdocs : ∀ field ∈ decl.fields, docs field.doc ⊆ comments) :
    LegibleBut comments (messageCode runtime decl) := by
  have hmethods : LegibleBut comments
      (if decl.fields.isEmpty then [] else .gap :: recordMethods decl) := by
    split
    · exact legibleBut_nil
    · exact legibleBut_cons_iff.2 ⟨Or.inr legible_gap,
        legibleBut_of_legible (legible_recordMethods hnames hname hfields htypes)⟩
  simp only [messageCode, legibleBut_append_iff, legibleBut_cons_iff]
  exact ⟨⟨legibleBut_record hnames hname hfields htypes hdoc hdocs, hmethods⟩, Or.inr legible_gap,
    legibleBut_of_legible (legible_overlay hnames hruntime hname hfields htypes)⟩

end

/-! ## Modules -/

def documentation (schema : Schema) : List String :=
  schema.enums.map EnumDecl.doc ++
    schema.messages.flatMap fun decl => decl.doc :: decl.fields.map FieldDecl.doc

/-- The comments whose text comes from outside. -/
def foreignComments (schema : Schema) (options : Options) : List Step :=
  header options :: (documentation schema).flatMap docs

/-- A module is legible, apart from the comments with a text from outside. -/
theorem legibleBut_moduleCode {schema : Schema} (hnames : ValidNames schema) {options : Options}
    (hruntime : Plain options.runtime) :
    LegibleBut (foreignComments schema options) (moduleCode schema options) := by
  have hdocs : ∀ doc ∈ documentation schema, docs doc ⊆ foreignComments schema options :=
    fun doc hdoc step hstep => List.mem_cons_of_mem _ (List.mem_flatMap.2 ⟨doc, hdoc, hstep⟩)
  rw [documentation, List.forall_mem_append, List.forall_mem_map, List.forall_mem_flatMap] at hdocs
  obtain ⟨henumDocs, hmessageDocs⟩ := hdocs
  rw [moduleCode, legibleBut_cons_iff, legibleBut_append_iff]
  refine ⟨Or.inl List.mem_cons_self, legibleBut_flatMap fun decl hdecl => ?_,
    legibleBut_flatMap fun decl hdecl => ?_⟩
  · refine legibleBut_cons_iff.2 ⟨Or.inr legible_gap, legibleBut_enumCode (henumDocs decl hdecl)
      (plain_of_isTypeName (hnames.enums decl hdecl)) fun value hvalue => ?_⟩
    exact plain_toVariant (hnames.values decl hdecl value hvalue)
  · obtain ⟨hdoc, hfieldDocs⟩ := List.forall_mem_cons.1 (hmessageDocs decl hdecl)
    exact legibleBut_cons_iff.2 ⟨Or.inr legible_gap, legibleBut_messageCode hnames hruntime
      (hnames.messages decl hdecl) (hnames.fields decl hdecl) (hnames.types decl hdecl) hdoc
      (List.forall_mem_map.1 hfieldDocs)⟩

end Code

end LayeredConfig
