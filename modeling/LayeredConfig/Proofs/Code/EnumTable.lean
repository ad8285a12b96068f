import LayeredConfig.Proofs.Code.Literal
import LayeredConfig.Proofs.Message.Choice

/-!
# The tables of an enum

The code of an enum has several tables side by side: the attributes of its variants, which
say how the values are written in documents, the list of the names, and a match for each
direction between names and variants.  They are read off the lines of the code.  All of them
agree with one another and with the readers of the library, for every text
(`enum_readers_agree`).
-/

namespace LayeredConfig.Code

open Text Step

/-! ## Lines with a literal -/

/-- The characters of lexemes without comments and literals. -/
def plainText? : List Lexeme → Option (List Char)
  | [] => some []
  | .plain c :: found => (plainText? found).map (c :: ·)
  | _ => none

/-- The text in front of the only literal, the literal, and the text after it. -/
def aroundLiteral? : List Lexeme → Option (List Char × String × List Char)
  | .plain c :: found => (aroundLiteral? found).map fun (start, rest) => (c :: start, rest)
  | .literal text :: found => (plainText? found).map fun rest => ([], text, rest)
  | _ => none

/-- What a reader makes out on a line with a single literal. -/
def around? (l : Line) : Option (List Char × String × List Char) :=
  (lexemes? l.content).bind aroundLiteral?

theorem plainText?_map (text : List Char) : plainText? (text.map .plain) = some text := by
  induction text with
  | nil => rfl
  | cons c text ih => rw [List.map_cons, plainText?, ih, Option.map_some]

theorem aroundLiteral?_eq_some (start : List Char) (text : String) (rest : List Char) :
    aroundLiteral? (start.map .plain ++ .literal text :: rest.map .plain) =
      some (start, text, rest) := by
  induction start with
  | nil => rw [List.map_nil, List.nil_append, aroundLiteral?, plainText?_map, Option.map_some]
  | cons c start ih => rw [List.map_cons, List.cons_append, aroundLiteral?, ih, Option.map_some]

theorem aroundLiteral?_eq_none (text : List Char) : aroundLiteral? (text.map .plain) = none := by
  induction text with
  | nil => rfl
  | cons c text ih => rw [List.map_cons, aroundLiteral?, ih, Option.map_none]

section

variable {pieces : List Piece} (h : (Line.code pieces).Legible)

include h

theorem around?_of_legible : around? (.code pieces) =
    aroundLiteral? (pieces.flatMap Piece.lexemes) := by
  obtain ⟨-, word, hreads⟩ := h
  have hcontent : (Line.code pieces).content = pieces.flatMap Piece.write := rfl
  rw [around?, hcontent, lexemes?_eq_some_iff.2 ⟨word, hreads⟩, Option.bind_some]

theorem around?_eq_some {start : List Char} {text : String} {rest : List Char}
    (hpieces : pieces.flatMap Piece.lexemes =
      start.map .plain ++ .literal text :: rest.map .plain) :
    around? (.code pieces) = some (start, text, rest) := by
  rw [around?_of_legible h, hpieces, aroundLiteral?_eq_some]

theorem around?_eq_none (hpieces : pieces.filterMap Piece.literal? = []) :
    around? (.code pieces) = none := by
  have hpiece : ∀ piece ∈ pieces, piece.lexemes = piece.write.map Lexeme.plain := by
    intro piece hpiece
    cases piece with
    | code text => rfl
    | literal text => exact nomatch List.filterMap_eq_nil_iff.1 hpieces _ hpiece
  have hlexemes : pieces.flatMap Piece.lexemes = (pieces.flatMap Piece.write).map Lexeme.plain := by
    rw [List.map_flatMap, List.flatMap_congr hpiece]
  rw [around?_of_legible h, hlexemes, aroundLiteral?_eq_none]

end

/-! ## The tables -/

/-- The arm of a match that gives a variant its name. -/
def shownArm? (l : Line) : Option (String × String) := do
  let (start, name, rest) ← around? l
  let (variant, arrow) ← splitOnce? ' ' (← dropStart? "Self::".toList start)
  if arrow = "=> ".toList ∧ rest = ",".toList then some (String.ofList variant, name) else none

/-- The arm of a match that gives a name its variant. -/
def parsedArm? (l : Line) : Option (String × String) := do
  let (start, name, rest) ← around? l
  let (variant, close) ← splitOnce? ')' (← dropStart? " => Some(Self::".toList rest)
  if start = [] ∧ close = ",".toList then some (name, String.ofList variant) else none

def rename? (l : Line) : Option String := do
  let (start, name, rest) ← around? l
  if start = "#[serde(rename = ".toList ∧ rest = ")]".toList then some name else none

def shownArms (steps : List Step) : List (String × String) :=
  (linesFrom "Self::" steps).filterMap shownArm?

def parsedArms (steps : List Step) : List (String × String) :=
  (linesFrom "\"" steps).filterMap parsedArm?

/-- The names in attributes, with the variants on the lines below them. -/
def renames : List Step → List (String × String)
  | [] => []
  | step :: steps =>
    match (lineFrom? "#[serde(rename = " step).bind rename?,
      (steps.head?.bind Step.line?).bind variantName? with
    | some name, some variant => (name, variant) :: renames steps
    | _, _ => renames steps

/-- The enum that an entry describes, and the type whose list of names it refers to. -/
def describedEnum? (l : Line) : Option (String × String) := do
  let (_, name, rest) ← around? l
  let (type, table) ← splitOnce? ':' (← dropStart? ", values: ".toList rest)
  let _ ← dropStart? ":NAMES \x7d".toList table
  some (name, String.ofList type)

def describedEnums (steps : List Step) : List (String × String) :=
  (linesFrom "kind: " steps).filterMap describedEnum?

/-! ## Reading the tables -/

section

variable {value : String} (h : Name.isEnumValueName value = true)

include h

theorem shownArm?_shownLine :
    shownArm? (.code (shownLine value)) = some (Name.toVariant value, value) := by
  have haround : around? (.code (shownLine value)) =
      some (("Self::" ++ Name.toVariant value ++ " => ").toList, value, ",".toList) :=
    around?_eq_some (legible_shownLine (plain_toVariant h)) (by simp [shownLine, Piece.lexemes])
  have hstart : dropStart? "Self::".toList ("Self::" ++ Name.toVariant value ++ " => ").toList =
      some ((Name.toVariant value).toList ++ ' ' :: "=> ".toList) :=
    dropStart?_eq_some_iff.2 (by simp)
  have hvariant : splitOnce? ' ' ((Name.toVariant value).toList ++ ' ' :: "=> ".toList) =
      some ((Name.toVariant value).toList, "=> ".toList) :=
    splitOnce?_eq_some_iff.2 ⟨not_mem_toVariant h (by decide), rfl⟩
  simp only [shownArm?, haround, Option.bind_eq_bind, Option.bind_some, hstart, hvariant,
    String.ofList_toList, and_self, if_true]

theorem parsedArm?_parsedLine :
    parsedArm? (.code (parsedLine value)) = some (value, Name.toVariant value) := by
  have haround : around? (.code (parsedLine value)) =
      some ([], value, (" => Some(Self::" ++ Name.toVariant value ++ "),").toList) :=
    around?_eq_some (legible_parsedLine (plain_toVariant h)) (by simp [parsedLine, Piece.lexemes])
  have hrest : dropStart? " => Some(Self::".toList
      (" => Some(Self::" ++ Name.toVariant value ++ "),").toList =
        some ((Name.toVariant value).toList ++ ')' :: ",".toList) :=
    dropStart?_eq_some_iff.2 (by simp)
  have hvariant : splitOnce? ')' ((Name.toVariant value).toList ++ ')' :: ",".toList) =
      some ((Name.toVariant value).toList, ",".toList) :=
    splitOnce?_eq_some_iff.2 ⟨not_mem_toVariant h (by decide), rfl⟩
  simp only [parsedArm?, haround, Option.bind_eq_bind, Option.bind_some, hrest, hvariant,
    String.ofList_toList, and_self, if_true]

end

theorem rename?_renameLine (value : String) : rename? (.code (renameLine value)) = some value := by
  have haround : around? (.code (renameLine value)) =
      some ("#[serde(rename = ".toList, value, ")]".toList) :=
    around?_eq_some (legible_renameLine value) (by simp [renameLine, Piece.lexemes])
  simp only [rename?, haround, Option.bind_eq_bind, Option.bind_some, and_self, if_true]

section

variable {decl : EnumDecl} (h : ∀ value ∈ decl.type.names, Name.isEnumValueName value = true)

include h

theorem shownArms_enumNames : shownArms (enumNames decl) =
    decl.type.names.map fun value => (Name.toVariant value, value) := by
  rw [shownArms, linesFrom_enumNames_shown, List.filterMap_map, ← List.filterMap_eq_map]
  exact List.filterMap_congr fun value hvalue => shownArm?_shownLine (h value hvalue)

theorem parsedArms_enumNames : parsedArms (enumNames decl) =
    decl.type.names.map fun value => (value, Name.toVariant value) := by
  rw [parsedArms, linesFrom_enumNames_parsed, List.filterMap_map, ← List.filterMap_eq_map]
  exact List.filterMap_congr fun value hvalue => parsedArm?_parsedLine (h value hvalue)

end

theorem renames_append_of_none {steps : List Step}
    (h : linesFrom "#[serde(rename = " steps = []) (more : List Step) :
    renames (steps ++ more) = renames more := by
  induction steps with
  | nil => rfl
  | cons step steps ih =>
    obtain ⟨hstep, hsteps⟩ := List.forall_mem_cons.1 (List.filterMap_eq_nil_iff.1 h)
    rw [List.cons_append, renames, hstep]
    exact ih (List.filterMap_eq_nil_iff.2 hsteps)

theorem renames_cons {name variant : String} {step : Step}
    (hname : (lineFrom? "#[serde(rename = " step).bind rename? = some name) (steps : List Step) :
    renames (step :: text (variant ++ ",") :: steps) =
      (name, variant) :: renames (text (variant ++ ",") :: steps) := by
  have hline : (some (text (variant ++ ","))).bind Step.line? =
      some (.code [.code (variant ++ ",")]) := rfl
  rw [renames, hname, List.head?_cons, hline, Option.bind_some, variantName?_eq_some]

theorem renames_variants {values : List String}
    (h : ∀ value ∈ values, Name.isEnumValueName value = true) (more : List Step) :
    renames (variants values ++ more) =
      values.map (fun value => (value, Name.toVariant value)) ++ renames more := by
  induction values with
  | nil => rfl
  | cons value values ih =>
    obtain ⟨hvalue, hvalues⟩ := List.forall_mem_cons.1 h
    have hsteps : variants (value :: values) ++ more = pieces (renameLine value) ::
      text (Name.toVariant value ++ ",") :: (variants values ++ more) := rfl
    have hname : (lineFrom? "#[serde(rename = " (pieces (renameLine value))).bind rename? =
        some value := rename?_renameLine value
    have hrest : renames (text (Name.toVariant value ++ ",") :: (variants values ++ more)) = _ :=
      renames_append_of_none (linesFrom_variantLine hvalue) (variants values ++ more)
    rw [hsteps, renames_cons hname, hrest, ih hvalues]
    rfl

theorem renames_enumType {decl : EnumDecl}
    (h : ∀ value ∈ decl.type.names, Name.isEnumValueName value = true) :
    renames (enumType decl) =
      decl.type.names.map fun value => (value, Name.toVariant value) := by
  rw [enumType_eq, List.append_assoc, List.append_assoc,
    renames_append_of_none (linesFrom_docs (c := '#') rfl (by decide) decl.doc),
    renames_append_of_none (linesFrom_enumHead decl), renames_variants h]
  exact List.append_nil _

/-! ### Descriptions -/

theorem describedEnum?_of_around {l : Line} {start rest close : List Char} {name : String}
    (haround : around? l = some (start, name, rest))
    (hrest : rest = ", values: ".toList ++ (name.toList ++ ':' :: (":NAMES \x7d".toList ++ close)))
    (hname : ':' ∉ name.toList) : describedEnum? l = some (name, name) := by
  have hvalues := dropStart?_eq_some_iff.2 hrest
  have htype : splitOnce? ':' (name.toList ++ ':' :: (":NAMES \x7d".toList ++ close)) =
      some (name.toList, ":NAMES \x7d".toList ++ close) := splitOnce?_eq_some_iff.2 ⟨hname, rfl⟩
  have htable : dropStart? ":NAMES \x7d".toList (":NAMES \x7d".toList ++ close) = some close :=
    dropStart?_eq_some_iff.2 rfl
  simp only [describedEnum?, haround, Option.bind_eq_bind, Option.bind_some, hvalues, htype,
    htable, String.ofList_toList]

section

variable {schema : Schema} (hnames : ValidNames schema) {runtime : String}
  (hruntime : Plain runtime)

theorem exists_kindEntry_eq (runtime : String) {type : FieldType} {name : String}
    (h : enumName? type = some name) : ∃ start, kindEntry runtime type =
      [.code start, .code (runtime ++ "::overlay::ValueType::Enum \x7b name: "), .literal name,
        .code (", values: " ++ name ++ "::NAMES \x7d"), .code ")"] := by
  match type, h with
  | .plain (.leaf (.enum e)), h =>
    obtain rfl := Option.some.inj h
    exact ⟨runtime ++ "::overlay::FieldKind::Leaf(", rfl⟩
  | .plain (.list (.enum e)), h =>
    obtain rfl := Option.some.inj h
    exact ⟨runtime ++ "::overlay::FieldKind::List(", rfl⟩

include hnames

theorem ValidNames.enumName {type : FieldType} (htype : type.DeclaredBy schema) {name : String}
    (h : enumName? type = some name) : Name.isTypeName name = true := by
  match type, h with
  | .plain (.leaf (.enum e)), h | .plain (.list (.enum e)), h =>
    obtain rfl := Option.some.inj h
    exact hnames.enum htype

include hruntime

theorem describedEnum?_kind {type : FieldType} (h : type.DeclaredBy schema) :
    describedEnum? (.code (tablePieces "kind" (kindEntry runtime type))) =
      (enumName? type).map fun name => (name, name) := by
  have hlegible : (Line.code (tablePieces "kind" (kindEntry runtime type))).Legible :=
    legible_tableLine (by decide) (readsPieces_kindEntry hnames hruntime h)
  cases hname : enumName? type with
  | none =>
    have haround : around? (.code (tablePieces "kind" (kindEntry runtime type))) = none :=
      around?_eq_none hlegible (by rw [filterMap_tablePieces, filterMap_kindEntry, hname]; rfl)
    simp only [describedEnum?, haround, Option.bind_eq_bind, Option.bind_none, Option.map_none]
  | some name =>
    obtain ⟨start, hkind⟩ := exists_kindEntry_eq runtime hname
    have haround : around? (.code (tablePieces "kind" (kindEntry runtime type))) =
        some (("kind: " ++ start ++ runtime ++ "::overlay::ValueType::Enum \x7b name: ").toList,
          name, (", values: " ++ name ++ "::NAMES \x7d),").toList) := by
      refine around?_eq_some hlegible ?_
      rw [hkind]
      simp [tablePieces, Piece.lexemes]
    have hrest : (", values: " ++ name ++ "::NAMES \x7d),").toList = ", values: ".toList ++
        (name.toList ++ ':' :: (":NAMES \x7d".toList ++ "),".toList)) := by simp
    have hword := FieldType.word_of_isTypeName (hnames.enumName h hname)
    exact describedEnum?_of_around haround hrest (hword.not_mem (by decide))

theorem describedEnums_table {decl : MessageDecl} (hdecl : decl ∈ schema.messages) :
    describedEnums (table runtime decl) =
      (decl.fields.filterMap fun field => enumName? field.type).map fun name => (name, name) := by
  rw [describedEnums, linesFrom_table_kind, List.filterMap_map, List.map_filterMap]
  exact List.filterMap_congr fun field hfield =>
    describedEnum?_kind hnames hruntime (hnames.types decl hdecl field hfield)

end

/-! ## Names of enums -/

theorem enum_eq_of_name {raw : RawSchema} {schema : Schema} (h : Schema.resolve raw = .ok schema)
    {decl other : EnumDecl} (hdecl : decl ∈ schema.enums) (hother : other ∈ schema.enums)
    (hname : decl.type.name = other.type.name) : decl = other := by
  have hdistinct := declaresDistinct_of_resolve h {}
  have hnodup := hdistinct.types_nodup
  rw [hdistinct.types, List.nodup_append] at hnodup
  exact List.inj_on_of_nodup_map hnodup.1 hdecl hother hname

/-! ## All readers -/

/-- What the tables of an enum say about the name of a value: they have it with the variant of the
value, in both directions. -/
def TablesAccept (decl : EnumDecl) (text : String) (v : decl.type.Val) : Prop :=
  ∃ variant, (namesOn variantName? (enumType decl))[v.val]? = some variant ∧
    (renames (enumType decl)).lookup text = some variant ∧
    (parsedArms (enumNames decl)).lookup text = some variant ∧
    (shownArms (enumNames decl)).lookup variant = some text

def TablesRefuse (decl : EnumDecl) (text : String) : Prop :=
  (renames (enumType decl)).lookup text = none ∧ (parsedArms (enumNames decl)).lookup text = none

theorem lookup_map_of_nodup {f : String → String} {items : List String}
    (h : (items.map f).Nodup) {a : String} (ha : a ∈ items) :
    (items.map fun b => (f b, b)).lookup (f a) = some a := by
  obtain ⟨before, after, rfl⟩ := List.append_of_mem ha
  rw [List.map_append, List.nodup_append] at h
  refine List.lookup_eq_some_iff.2 ⟨before.map fun b => (f b, b), after.map fun b => (f b, b), ?_,
    List.forall_mem_map.2 fun b hb => ?_⟩
  · rw [List.map_append, List.map_cons]
  · have hne := h.2.2 (f b) (List.mem_map_of_mem hb) (f a) List.mem_cons_self
    simpa using hne.symm

section

variable {decl : EnumDecl} (h : ∀ value ∈ decl.type.names, Name.isEnumValueName value = true)

include h

theorem tablesAccept_valueName (hnodup : (decl.type.names.map Name.toVariant).Nodup)
    (v : decl.type.Val) : TablesAccept decl (decl.type.valueName v) v := by
  have hmem := EnumType.valueName_mem v
  refine ⟨Name.toVariant (decl.type.valueName v), ?_, ?_, ?_, ?_⟩
  · rw [variantNames_enumType, List.getElem?_map, List.getElem?_eq_getElem v.isLt]
    rfl
  · rw [renames_enumType h]
    exact List.lookup_graph Name.toVariant hmem
  · rw [parsedArms_enumNames h]
    exact List.lookup_graph Name.toVariant hmem
  · rw [shownArms_enumNames h]
    exact lookup_map_of_nodup hnodup hmem

theorem tablesRefuse_of_not_mem {text : String} (htext : text ∉ decl.type.names) :
    TablesRefuse decl text := by
  have hlookup : (decl.type.names.map fun value => (value, Name.toVariant value)).lookup text =
      none := by
    refine List.lookup_eq_none_iff.2 (List.forall_mem_map.2 fun value hvalue => ?_)
    have hne : text ≠ value := fun heq => htext (heq ▸ hvalue)
    simpa using hne
  rw [TablesRefuse, renames_enumType h, parsedArms_enumNames h]
  exact ⟨hlookup, hlookup⟩

end

/-- All readers of an enum agree: those of the library, and the tables in its code. -/
structure ReadersAgree (schema : Schema) (options : Options) (decl : EnumDecl) : Prop where
  /-- A text is accepted by all of them and for the same value, or refused by all. -/
  texts : ∀ text, (∃ v, decl.type.Accepts text v ∧ TablesAccept decl text v) ∨
    (decl.type.Refuses text ∧ TablesRefuse decl text)
  /-- Different values have different names and variants. -/
  distinct : Function.Injective decl.type.valueName ∧
    (namesOn variantName? (enumType decl)).Nodup
  /-- The list of the names has them in the order of the declaration. -/
  names : literalsOn "pub const NAMES: " (enumNames decl) = [some decl.type.names]
  /-- Lists are read alike from documents and from the environment. -/
  lists : ∀ values : List decl.type.Val, values ≠ [] →
    Kind.decode (.list (.enum decl.type))
        (.array (values.map (ValueType.enum decl.type).toJson)) = .ok values ∧
      ∀ (env : Environment) (name : String),
        env.texts.find? name = some (decl.type.listText values) →
          env.list? name (.enum decl.type) = some values
  /-- A field with an enum of this name is a field with this enum, -/
  fields : ∀ message ∈ schema.messages, ∀ field ∈ message.fields, ∀ e,
    field.type = .plain (.leaf (.enum e)) ∨ field.type = .plain (.list (.enum e)) →
      e.name = decl.type.name → e = decl.type
  /-- and its description refers to the list of the names. -/
  described : Plain options.runtime → ∀ message ∈ schema.messages,
    describedEnums (table options.runtime message) =
      (message.fields.filterMap fun field => enumName? field.type).map fun name => (name, name)

/-- The readers of each enum of an accepted schema agree, on every text. -/
theorem enum_readers_agree {raw : RawSchema} {schema : Schema}
    (h : Schema.resolve raw = .ok schema) (options : Options) {decl : EnumDecl}
    (hdecl : decl ∈ schema.enums) : ReadersAgree schema options decl := by
  have hnames := validNames_of_resolve h
  obtain ⟨hvalues, hnodup⟩ := values_of_resolve h hdecl
  have hempty : "" ∉ decl.type.names := fun hmem => nomatch hvalues "" hmem
  have hword : ∀ name ∈ decl.type.names, isWord name = true :=
    fun name hname => isWord_of_isEnumValueName (hvalues name hname)
  have hcomma : ∀ name ∈ decl.type.names, ',' ∉ name.toList :=
    fun name hname => not_mem_of_isWord (hword name hname) (by decide) (by decide)
  have htight : ∀ name ∈ decl.type.names, Tight name.toList :=
    fun name hname => tight_of_isWord (hword name hname)
  refine ⟨fun text => ?_, ⟨decl.type.valueName_injective, ?_⟩, literalsOn_enumNames_table decl,
    fun values hne => EnumType.readsLists hcomma hne htight hempty,
    fun message hmessage field hfield e htype hname => ?_,
    fun hruntime message hmessage => describedEnums_table hnames hruntime hmessage⟩
  · rcases EnumType.accepts_or_refuses hempty text with ⟨v, hv⟩ | hrefuses
    · have htables := tablesAccept_valueName hvalues hnodup v
      rw [hv.shown] at htables
      exact Or.inl ⟨v, hv, htables⟩
    · exact Or.inr ⟨hrefuses, tablesRefuse_of_not_mem hvalues hrefuses.listed⟩
  · rw [variantNames_enumType]
    exact hnodup
  · have hdeclared : (ValueType.enum e).DeclaredBy schema := by
      have hfieldType := hnames.types message hmessage field hfield
      rcases htype with htype | htype <;> rwa [htype] at hfieldType
    obtain ⟨other, hother, rfl⟩ := hdeclared
    rw [enum_eq_of_name h hother hdecl hname]

def modeDecl : EnumDecl := ⟨modeType, "How fast."⟩

/-- The readers agree on `SLOW`, the second value, and on `slow`, which is none. -/
theorem enum_readers_agree_variedSchema :
    Schema.resolve variedDeclaration = .ok variedSchema ∧ ReadersAgree variedSchema {} modeDecl ∧
      (∃ v : modeType.Val, v.val = 1 ∧ modeType.Accepts "SLOW" v ∧
        TablesAccept modeDecl "SLOW" v) ∧
      modeType.Refuses "slow" ∧ TablesRefuse modeDecl "slow" := by
  have hschema : Schema.resolve variedDeclaration = .ok variedSchema := rfl
  have hmode : modeDecl ∈ variedSchema.enums := List.mem_cons_self
  have hagree := enum_readers_agree hschema {} hmode
  have hlisted : "SLOW" ∈ modeType.names := by decide
  have hunlisted : "slow" ∉ modeType.names := by decide
  obtain ⟨v, hv, htables⟩ := (hagree.texts "SLOW").resolve_right fun h => h.1.listed hlisted
  obtain ⟨hslow, hnone⟩ := (hagree.texts "slow").resolve_left fun ⟨v, hv, _⟩ => hunlisted hv.listed
  have hsecond : modeType.names.idxOf "SLOW" = 1 := by decide
  exact ⟨hschema, hagree, ⟨v, hv.position.symm.trans hsecond, hv, htables⟩, hslow, hnone⟩

end LayeredConfig.Code
