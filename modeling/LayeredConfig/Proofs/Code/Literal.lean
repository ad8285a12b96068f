import LayeredConfig.Proofs.Code.Comment

/-!
# Literals of generated code

Texts of a schema get into its code as string literals: names in all their spellings, the
values of enums, and the lines of the documentation.  A reader of the code makes out the
same texts in the same order (`literals_denote`), whatever characters they have.  A quoted
text is read to its last character and no further (`denotes_quote`), so no text closes its
literal early, and the lines of code keep to themselves.
-/

namespace LayeredConfig.Code

open Text Step

/-! ## Quoted texts -/

theorem Mode.readLiteral_literal {text : List Char} {c : Char} {escape : Escape} {next : Mode}
    (h : readLiteral text c escape = some (next, [])) :
    ∃ text' escape', next = .literal text' escape' := by
  cases escape <;> simp only [readLiteral, readText, readDigits] at h <;>
    grind [= Option.map_eq_some_iff, = Option.bind_eq_some_iff]

theorem Reads.literal_of_nil {text : List Char} {escape : Escape} {cs : List Char} {after : Mode}
    (h : Reads (.literal text escape) cs [] after) :
    ∃ text' escape', after = .literal text' escape' := by
  induction cs generalizing text escape with
  | nil =>
    obtain ⟨rfl, -⟩ := reads_nil_iff.1 h
    exact ⟨text, escape, rfl⟩
  | cons c cs ih =>
    obtain ⟨next, first, rest, hc, hcs, hfound⟩ := h.exists_cons
    obtain ⟨rfl, rfl⟩ := List.append_eq_nil_iff.1 hfound.symm
    obtain ⟨text', escape', rfl⟩ := Mode.readLiteral_literal hc
    exact ih hcs

/-- A reader comes through the beginning of what it reads. -/
theorem Reads.exists_between {before after : Mode} {text rest : List Char} {found : List Lexeme}
    (h : Reads before (text ++ rest) found after) :
    ∃ between first more, Reads before text first between ∧ Reads between rest more after ∧
      found = first ++ more := by
  induction text generalizing before found with
  | nil => exact ⟨before, [], found, reads_nil before, h, rfl⟩
  | cons c cs ih =>
    obtain ⟨next, first, rest', hc, hcs, rfl⟩ := h.exists_cons
    obtain ⟨between, found, more, hfound, hmore, rfl⟩ := ih hcs
    exact ⟨between, first ++ found, more, Reads.cons hc hfound, hmore, (List.append_assoc ..).symm⟩

/-- A literal that denotes a text.  It stays on its line, and a reader is within it up to its
last character, and then out of it. -/
structure Denotes (quoted : List Char) (text : String) : Prop where
  line : '\n' ∉ quoted ∧ '\r' ∉ quoted
  within : ∀ start rest, quoted = start ++ rest → start ≠ [] → rest ≠ [] →
    ∃ read escape, Reads (.code false) start [] (.literal read escape)
  reads : Reads (.code false) quoted [.literal text] (.code true)

theorem denotes_quote (text : String) : Denotes (Quoted.quote text.toList) text where
  line := ⟨not_mem_quote text (Or.inl rfl), not_mem_quote text (Or.inr rfl)⟩
  within := by
    intro start rest hquote hstart hrest
    obtain ⟨c, cs, rfl⟩ := List.exists_cons_of_ne_nil hstart
    obtain ⟨more, last, rfl⟩ := List.eq_nil_or_concat' rest |>.resolve_left hrest
    have hsplit : '"' :: (text.toList.flatMap Quoted.escape ++ ['"']) =
        c :: (cs ++ more ++ [last]) := by
      rw [List.append_assoc]
      exact hquote
    obtain ⟨rfl, hbody⟩ := List.cons.inj hsplit
    have hcs : text.toList.flatMap Quoted.escape = cs ++ more := List.append_inj_left' hbody rfl
    have hreads := reads_flatMap_escape [] text.toList
    rw [hcs] at hreads
    obtain ⟨between, first, found, hfirst, -, hfound⟩ := hreads.exists_between
    obtain ⟨rfl, -⟩ := List.append_eq_nil_iff.1 hfound.symm
    obtain ⟨read, escape, rfl⟩ := hfirst.literal_of_nil
    have hopen : (Mode.code false).read '"' = some (.literal [] .none, []) := rfl
    exact ⟨read, escape, Reads.cons hopen hfirst⟩
  reads := reads_quote text

/-! ## Literals on lines -/

def Lexeme.literal? : Lexeme → Option String
  | literal text => some text
  | comment _ | plain _ => none

def Piece.literal? : Piece → Option String
  | code _ => none
  | literal text => some text

/-- What the literals denote that a reader makes out on a line.  There has to be a single line. -/
def literals? (text : List Char) : Option (List String) :=
  if '\n' ∈ text then none
  else (lexemes? text).map fun found => found.filterMap Lexeme.literal?

/-- The line of an entry that begins with `start`.  Lines that begin or end a block are none. -/
def lineFrom? (start : String) : Step → Option Line
  | line l => if start.toList.isPrefixOf l.content then some l else none
  | enter _ | leave _ | deeper => none

def linesFrom (start : String) (steps : List Step) : List Line :=
  steps.filterMap (lineFrom? start)

/-- What the literals denote on each of the entries that begin with `start`. -/
def literalsOn (start : String) (steps : List Step) : List (Option (List String)) :=
  (linesFrom start steps).map fun l => literals? l.content

theorem filterMap_lexemes (pieces : List Piece) :
    (pieces.flatMap Piece.lexemes).filterMap Lexeme.literal? = pieces.filterMap Piece.literal? := by
  induction pieces with
  | nil => rfl
  | cons piece pieces ih =>
    rw [List.flatMap_cons, List.filterMap_append, ih]
    cases piece with
    | code text =>
      have hplain : (text.toList.map Lexeme.plain).filterMap Lexeme.literal? = [] := by
        rw [List.filterMap_map]
        exact List.filterMap_eq_nil_iff.2 fun _ _ => rfl
      rw [Piece.lexemes, hplain]
      rfl
    | literal text => rfl

theorem literals?_of_legible {pieces : List Piece} (h : (Line.code pieces).Legible) :
    literals? (Line.code pieces).content = some (pieces.filterMap Piece.literal?) := by
  obtain ⟨hline, word, hreads⟩ := h
  have hlexemes := lexemes?_eq_some_iff.2 ⟨word, hreads⟩
  have hcontent : (Line.code pieces).content = pieces.flatMap Piece.write := rfl
  rw [literals?, hcontent, if_neg hline, hlexemes, Option.map_some, filterMap_lexemes]

theorem filterMap_literals (texts : List String) :
    (literals texts).filterMap Piece.literal? = texts := by
  induction texts with
  | nil => rfl
  | cons text texts ih =>
    cases texts with
    | nil => rfl
    | cons next texts => exact congrArg (text :: ·) ih

theorem filterMap_docEntry (doc : String) :
    (docEntry doc).filterMap Piece.literal? = docLines doc := by
  rw [docEntry, List.filterMap_append, List.filterMap_append, filterMap_literals]
  exact List.append_nil _

section

variable {start : String}

theorem linesFrom_append (steps more : List Step) :
    linesFrom start (steps ++ more) = linesFrom start steps ++ linesFrom start more :=
  List.filterMap_append

theorem linesFrom_flatMap {α : Type} (items : List α) (f : α → List Step) :
    linesFrom start (items.flatMap f) = items.flatMap fun a => linesFrom start (f a) :=
  List.filterMap_flatMap

theorem linesFrom_eq_nil {steps : List Step} (h : ∀ step ∈ steps, lineFrom? start step = none) :
    linesFrom start steps = [] :=
  List.filterMap_eq_nil_iff.2 h

theorem linesFrom_map_eq_nil {α : Type} {items : List α} {f : α → Step}
    (h : ∀ a ∈ items, lineFrom? start (f a) = none) : linesFrom start (items.map f) = [] :=
  linesFrom_eq_nil (List.forall_mem_map.2 h)

theorem linesFrom_map {α : Type} {items : List α} {l : α → Line}
    (h : ∀ a ∈ items, lineFrom? start (line (l a)) = some (l a)) :
    linesFrom start (items.map fun a => line (l a)) = items.map l := by
  rw [linesFrom, List.filterMap_map, ← List.filterMap_eq_map]
  exact List.filterMap_congr h

theorem literalsOn_of_lines {α : Type} {items : List α} {pieces : α → List Piece}
    {steps : List Step} (hlines : linesFrom start steps = items.map fun a => .code (pieces a))
    (hlegible : ∀ a ∈ items, (Line.code (pieces a)).Legible) :
    literalsOn start steps = items.map fun a => some ((pieces a).filterMap Piece.literal?) := by
  rw [literalsOn, hlines, List.map_map]
  exact List.map_congr_left fun a ha => literals?_of_legible (hlegible a ha)

theorem lineFrom?_eq_none {l : Line} {c : Char} (hstart : start.toList.head? = some c)
    (h : l.content.head? ≠ some c) : lineFrom? start (line l) = none := by
  obtain ⟨cs, hcs⟩ := List.head?_eq_some_iff.1 hstart
  have hprefix : start.toList.isPrefixOf l.content = false := by
    rw [hcs]
    cases hcontent : l.content with
    | nil => rfl
    | cons d ds =>
      have hne : c ≠ d := by
        rintro rfl
        exact h (by rw [hcontent]; rfl)
      simp [List.isPrefixOf, hne]
  rw [lineFrom?, hprefix]
  rfl

theorem content_text (s : String) : (Line.code [.code s]).content = s.toList :=
  List.flatMap_singleton ..

theorem linesFrom_docs {c : Char} (hstart : start.toList.head? = some c) (hc : c ≠ '/')
    (doc : String) : linesFrom start (docs doc) = [] := by
  refine linesFrom_map_eq_nil fun text _ => lineFrom?_eq_none hstart ?_
  rw [content_doc]
  simpa using hc.symm

end

/-! ### The table of a message -/

section

variable {runtime : String} {decl : MessageDecl}

def tablePieces (name : String) (value : List Piece) : List Piece :=
  [.code (name ++ ": ")] ++ value ++ [.code ","]

theorem filterMap_tablePieces (name : String) (value : List Piece) :
    (tablePieces name value).filterMap Piece.literal? = value.filterMap Piece.literal? := by
  rw [tablePieces, List.filterMap_append, List.filterMap_append]
  exact List.append_nil _

/-- The two entries in front of those of the fields. -/
def tableHead (decl : MessageDecl) : List Step :=
  [tableLine "name" [.literal decl.name], tableLine "doc" (docEntry decl.doc)]

theorem linesFrom_table {start : String} {l : FieldDecl → Line}
    (hempty : lineFrom? start (.text "fields: &[],") = none)
    (hfield : ∀ field, linesFrom start (fieldEntry runtime field) = [l field]) :
    linesFrom start (table runtime decl) =
      linesFrom start (tableHead decl) ++ decl.fields.map l := by
  have hentries : linesFrom start (fieldEntries runtime decl.fields) = decl.fields.map l := by
    rw [fieldEntries]
    cases hfields : decl.fields with
    | nil => exact linesFrom_eq_nil (List.forall_mem_singleton.2 hempty)
    | cons field fields =>
      rw [← hfields, if_neg (by simp [hfields]), linesFrom_append, linesFrom_append,
        linesFrom_flatMap, List.map_eq_flatMap, List.flatMap_congr fun field _ => hfield field]
      exact List.append_nil _
  rw [table, linesFrom_append, linesFrom_append, hentries]
  exact List.append_nil _

theorem literalsOn_table_doc (runtime : String) (decl : MessageDecl) :
    literalsOn "doc: " (table runtime decl) =
      (decl.doc :: decl.fields.map FieldDecl.doc).map fun doc => some (docLines doc) := by
  have hlines : linesFrom "doc: " (table runtime decl) =
      (decl.doc :: decl.fields.map FieldDecl.doc).map fun doc =>
        .code (tablePieces "doc" (docEntry doc)) := by
    rw [List.map_cons, List.map_map]
    exact linesFrom_table rfl fun _ => rfl
  rw [literalsOn_of_lines hlines fun doc _ =>
    legible_tableLine (by decide) (readsPieces_docEntry doc)]
  simp only [filterMap_tablePieces, filterMap_docEntry]

theorem literalsOn_of_texts {α : Type} {start name : String} (hname : Plain name)
    {steps : List Step} {items : List α} {text : α → String} (hlines : linesFrom start steps =
      items.map fun a => .code (tablePieces name [.literal (text a)])) :
    literalsOn start steps = items.map fun a => some [text a] :=
  literalsOn_of_lines hlines fun a _ => legible_tableLine_literal hname (text a)

theorem literalsOn_table_name (runtime : String) (decl : MessageDecl) :
    literalsOn "name: " (table runtime decl) =
      (decl.name :: decl.fields.map FieldDecl.name).map fun name => some [name] := by
  refine literalsOn_of_texts (by decide : Plain "name") ?_
  rw [List.map_cons, List.map_map]
  exact linesFrom_table rfl fun _ => rfl

theorem literalsOn_table_publicName (runtime : String) (decl : MessageDecl) :
    literalsOn "public_name: " (table runtime decl) =
      decl.fields.map fun field => some [Name.toPublic field.name] :=
  literalsOn_of_texts (by decide : Plain "public_name") (linesFrom_table rfl fun _ => rfl)

theorem literalsOn_table_envSuffix (runtime : String) (decl : MessageDecl) :
    literalsOn "env_suffix: " (table runtime decl) =
      decl.fields.map fun field => some [Name.toEnvSuffix field.name] :=
  literalsOn_of_texts (by decide : Plain "env_suffix") (linesFrom_table rfl fun _ => rfl)

def enumName? : FieldType → Option String
  | .plain (.leaf (.enum e)) | .plain (.list (.enum e)) => some e.name
  | _ => none

theorem filterMap_kindEntry (runtime : String) (type : FieldType) :
    (kindEntry runtime type).filterMap Piece.literal? = (enumName? type).toList := by
  cases type with
  | plain kind =>
    cases kind with
    | leaf type | list type => cases type <;> rfl
    | map => rfl
  | message | messageList => rfl

theorem linesFrom_table_kind (runtime : String) (decl : MessageDecl) :
    linesFrom "kind: " (table runtime decl) =
      decl.fields.map fun field => .code (tablePieces "kind" (kindEntry runtime field.type)) :=
  linesFrom_table rfl fun _ => rfl

theorem literalsOn_table_kind {schema : Schema} (hnames : ValidNames schema)
    (hruntime : Plain runtime) (hdecl : decl ∈ schema.messages) :
    literalsOn "kind: " (table runtime decl) =
      decl.fields.map fun field => some (enumName? field.type).toList := by
  rw [literalsOn_of_lines (linesFrom_table_kind runtime decl) fun field hfield =>
    legible_tableLine (by decide)
      (readsPieces_kindEntry hnames hruntime (hnames.types decl hdecl field hfield))]
  simp only [filterMap_tablePieces, filterMap_kindEntry]

/-! ### Records -/

/-- The attribute of a slot with another spelling. -/
def aliasPieces (field : FieldDecl) : List Piece :=
  [.code "#[serde(alias = ", .literal (Name.toLowerCamel field.name), .code ", "] ++
    [.code "skip_serializing_if = ", .literal (unsetTest field.type), .code ")]"]

theorem linesFrom_slot (field : FieldDecl) : linesFrom "#[serde(alias = " (slot field) =
    if Name.toLowerCamel field.name = field.name then [] else [.code (aliasPieces field)] := by
  have hdeclaration : linesFrom "#[serde(alias = "
      [.text ("pub " ++ Name.toIdentifier field.name ++ ": " ++ slotType field.type ++ ",")] = [] :=
    linesFrom_eq_nil (List.forall_mem_singleton.2 (lineFrom?_eq_none (c := '#') rfl
      (by simp [content_text])))
  rw [slot, linesFrom_append, linesFrom_docs (c := '#') rfl (by decide), List.nil_append,
    ← List.singleton_append, linesFrom_append, hdeclaration, List.append_nil, slotAttribute]
  split <;> rfl

theorem legible_aliasPieces {field : FieldDecl} (h : Name.toLowerCamel field.name ≠ field.name) :
    (Line.code (aliasPieces field)).Legible := by
  have hattribute := legible_slotAttribute field
  rwa [slotAttribute, if_neg h] at hattribute

theorem literalsOn_record (decl : MessageDecl) : literalsOn "#[serde(alias = " (record decl) =
    (decl.fields.filter fun field => Name.toLowerCamel field.name ≠ field.name).map fun field =>
      some [Name.toLowerCamel field.name, unsetTest field.type] := by
  have hslots : (decl.fields.flatMap fun field => linesFrom "#[serde(alias = " (slot field)) =
      (decl.fields.filter fun field => Name.toLowerCamel field.name ≠ field.name).map fun field =>
        .code (aliasPieces field) := by
    induction decl.fields with
    | nil => rfl
    | cons field fields ih =>
      rw [List.flatMap_cons, ih, linesFrom_slot]
      by_cases hcamel : Name.toLowerCamel field.name = field.name <;> simp [hcamel]
  have hhead : linesFrom "#[serde(alias = " [
      .text ("#[derive(Debug, Clone, Default, PartialEq, Eq, " ++
        "::serde::Serialize, ::serde::Deserialize)]"),
      .text "#[serde(default)]",
      .block ("pub struct " ++ decl.name ++ " \x7b")] = [] := rfl
  refine literalsOn_of_lines ?_ fun field hfield =>
    legible_aliasPieces (by simpa using (List.mem_filter.1 hfield).2)
  rw [record, linesFrom_append, linesFrom_append, linesFrom_append,
    linesFrom_docs (c := '#') rfl (by decide), hhead, linesFrom_flatMap, hslots, List.nil_append]
  exact List.append_nil _

end

/-! ### Enums -/

section

variable {decl : EnumDecl}

theorem linesFrom_variantLine {value : String} (h : Name.isEnumValueName value = true) :
    linesFrom "#[serde(rename = " [.text (Name.toVariant value ++ ",")] = [] := by
  refine linesFrom_eq_nil (List.forall_mem_singleton.2 ?_)
  refine lineFrom?_eq_none (c := '#') rfl fun hhead => ?_
  have hmem := List.mem_of_head? hhead
  rw [content_text, String.toList_append, List.mem_append] at hmem
  exact hmem.elim (not_mem_toVariant h (by decide)) (by decide)

def enumHead (decl : EnumDecl) : List Step :=
  [text ("#[derive(Debug, Clone, Copy, Default, PartialEq, Eq, Hash, " ++
    "::serde::Serialize, ::serde::Deserialize)]"),
   block ("pub enum " ++ decl.type.name ++ " \x7b"), text "#[default]"]

theorem enumType_eq (decl : EnumDecl) : enumType decl =
    docs decl.doc ++ enumHead decl ++ variants decl.type.names ++ [closeBrace] := rfl

theorem linesFrom_enumHead (decl : EnumDecl) :
    linesFrom "#[serde(rename = " (enumHead decl) = [] := by
  rfl

/-- The values of an enum stand with its variants, -/
theorem linesFrom_enumType (h : ∀ value ∈ decl.type.names, Name.isEnumValueName value = true) :
    linesFrom "#[serde(rename = " (enumType decl) =
      decl.type.names.map fun value => .code (renameLine value) := by
  have hvariants : linesFrom "#[serde(rename = " (variants decl.type.names) =
      decl.type.names.map fun value => .code (renameLine value) := by
    rw [variants, linesFrom_flatMap, List.map_eq_flatMap]
    refine List.flatMap_congr fun value hvalue => ?_
    rw [← List.singleton_append, linesFrom_append, linesFrom_variantLine (h value hvalue)]
    rfl
  rw [enumType_eq, linesFrom_append, linesFrom_append, linesFrom_append,
    linesFrom_docs (c := '#') rfl (by decide), linesFrom_enumHead, hvariants, List.nil_append]
  exact List.append_nil _

theorem content_shownLine (value : String) : ∃ rest, (Line.code (shownLine value)).content =
    "Self::".toList ++ rest := by
  refine ⟨(Name.toVariant value ++ " => ").toList ++ (Quoted.quote value.toList ++ ",".toList), ?_⟩
  simp [shownLine, Line.content, Piece.write]

theorem lineFrom?_shownLine {start : String} {c : Char} (hstart : start.toList.head? = some c)
    (hc : c ≠ 'S') (value : String) : lineFrom? start (.pieces (shownLine value)) = none := by
  obtain ⟨rest, hrest⟩ := content_shownLine value
  refine lineFrom?_eq_none hstart ?_
  rw [hrest]
  simpa using hc.symm

/-- in a table of their own, -/
theorem linesFrom_enumNames_table (decl : EnumDecl) :
    linesFrom "pub const NAMES: " (enumNames decl) = [.code (namesLine decl.type.names)] := by
  have hshown : linesFrom "pub const NAMES: "
      (decl.type.names.map fun value => pieces (shownLine value)) = [] :=
    linesFrom_map_eq_nil fun value _ => lineFrom?_shownLine (c := 'p') rfl (by decide) value
  have hparsed : linesFrom "pub const NAMES: "
      (decl.type.names.map fun value => pieces (parsedLine value)) = [] :=
    linesFrom_map_eq_nil fun _ _ => rfl
  rw [enumNames_eq, linesFrom_append, linesFrom_append, linesFrom_append, linesFrom_append,
    hshown, hparsed]
  rfl

/-- with the variants that are shown as them, -/
theorem linesFrom_enumNames_shown (decl : EnumDecl) :
    linesFrom "Self::" (enumNames decl) =
      decl.type.names.map fun value => .code (shownLine value) := by
  have hshown : linesFrom "Self::" (decl.type.names.map fun value => pieces (shownLine value)) =
      decl.type.names.map fun value => .code (shownLine value) := by
    refine linesFrom_map fun value _ => ?_
    obtain ⟨rest, hrest⟩ := content_shownLine value
    have hstart := List.isPrefixOf_iff_prefix.2 (List.prefix_append "Self::".toList rest)
    rw [lineFrom?, hrest, if_pos hstart]
  have hparsed : linesFrom "Self::" (decl.type.names.map fun value => pieces (parsedLine value)) =
      [] := linesFrom_map_eq_nil fun _ _ => rfl
  rw [enumNames_eq, linesFrom_append, linesFrom_append, linesFrom_append, linesFrom_append,
    hshown, hparsed]
  change decl.type.names.map (fun value => Line.code (shownLine value)) ++ [] ++ [] ++ [] = _
  simp only [List.append_nil]

/-- and with the variants that they are read as. -/
theorem linesFrom_enumNames_parsed (decl : EnumDecl) :
    linesFrom "\"" (enumNames decl) =
      decl.type.names.map fun value => .code (parsedLine value) := by
  have hshown : linesFrom "\"" (decl.type.names.map fun value => pieces (shownLine value)) = [] :=
    linesFrom_map_eq_nil fun value _ => lineFrom?_shownLine (c := '"') rfl (by decide) value
  have hparsed : linesFrom "\"" (decl.type.names.map fun value => pieces (parsedLine value)) =
      decl.type.names.map fun value => .code (parsedLine value) := linesFrom_map fun _ _ => rfl
  rw [enumNames_eq, linesFrom_append, linesFrom_append, linesFrom_append, linesFrom_append,
    hshown, hparsed]
  exact List.append_nil _

theorem literalsOn_enumType (h : ∀ value ∈ decl.type.names, Name.isEnumValueName value = true) :
    literalsOn "#[serde(rename = " (enumType decl) =
      decl.type.names.map fun value => some [value] :=
  literalsOn_of_lines (linesFrom_enumType h) fun value _ => legible_renameLine value

theorem literalsOn_enumNames_table (decl : EnumDecl) :
    literalsOn "pub const NAMES: " (enumNames decl) = [some decl.type.names] := by
  have hnames : (namesLine decl.type.names).filterMap Piece.literal? = decl.type.names := by
    rw [namesLine, List.filterMap_append, List.filterMap_append, filterMap_literals]
    exact List.append_nil _
  rw [literalsOn, linesFrom_enumNames_table, List.map_singleton,
    literals?_of_legible (legible_namesLine decl.type.names), hnames]

theorem literalsOn_enumNames_shown
    (h : ∀ value ∈ decl.type.names, Plain (Name.toVariant value)) :
    literalsOn "Self::" (enumNames decl) = decl.type.names.map fun value => some [value] :=
  literalsOn_of_lines (linesFrom_enumNames_shown decl) fun value hvalue =>
    legible_shownLine (h value hvalue)

theorem literalsOn_enumNames_parsed
    (h : ∀ value ∈ decl.type.names, Plain (Name.toVariant value)) :
    literalsOn "\"" (enumNames decl) = decl.type.names.map fun value => some [value] :=
  literalsOn_of_lines (linesFrom_enumNames_parsed decl) fun value hvalue =>
    legible_parsedLine (h value hvalue)

end

/-! ## Modules -/

/-- The parts of a module that the literals of a schema stand in. -/
def literalParts (schema : Schema) (options : Options) : List (List Step) :=
  (schema.enums.flatMap fun decl => [enumType decl, enumNames decl]) ++
    schema.messages.flatMap fun decl => [record decl, table options.runtime decl]

theorem part_infix_moduleCode {schema : Schema} {options : Options} {part : List Step}
    (h : part ∈ literalParts schema options) : part <:+: (moduleCode schema options).tail := by
  rw [moduleCode, List.tail_cons]
  rcases List.mem_append.1 h with h | h
  · obtain ⟨decl, hdecl, hpart⟩ := List.mem_flatMap.1 h
    have hcode : part <:+: .gap :: enumCode decl := by
      rw [enumCode]
      rcases List.mem_pair.1 hpart with rfl | rfl
      · exact ⟨[.gap], .gap :: (enumNames decl ++ [.gap] ++ enumDisplay decl), by simp⟩
      · exact ⟨.gap :: (enumType decl ++ [.gap]), .gap :: enumDisplay decl, by simp⟩
    exact (hcode.trans (infix_flatMap hdecl fun decl => .gap :: enumCode decl)).trans
      (List.prefix_append _ _).isInfix
  · obtain ⟨decl, hdecl, hpart⟩ := List.mem_flatMap.1 h
    have hcode : part <:+: .gap :: messageCode options.runtime decl := by
      rcases List.mem_pair.1 hpart with rfl | rfl
      · exact List.infix_cons (record_prefix_messageCode options.runtime decl).isInfix
      · have htable : table options.runtime decl <:+: overlay options.runtime decl := by
          rw [overlay]
          exact ⟨[_], .gap :: (routine options.runtime decl ++ [.closeBrace]), by simp; rfl⟩
        have hoverlay : overlay options.runtime decl <:+ messageCode options.runtime decl :=
          (List.suffix_cons _ _).trans (List.suffix_append _ _)
        exact htable.trans (List.infix_cons hoverlay.isInfix)
    exact (hcode.trans (infix_flatMap hdecl fun decl =>
      .gap :: messageCode options.runtime decl)).trans (List.suffix_append _ _).isInfix

theorem line_mem_generate {schema : Schema} {options : Options} {part : List Step}
    (h : part ∈ literalParts schema options) {l : Line} (hl : line l ∈ part)
    (hline : '\n' ∉ l.content) :
    ∃ level, l.indented level ∈ split '\n' (generate schema options).toList := by
  obtain ⟨before, after, rfl⟩ := List.append_of_mem hl
  have hsingle : [l].map Step.line <:+: before ++ line l :: after := ⟨before, after, by simp⟩
  obtain ⟨level, hlevel⟩ := lines_infix_generate (hsingle.trans (part_infix_moduleCode h))
    (List.forall_mem_singleton.2 hline)
  exact ⟨level, hlevel.subset List.mem_cons_self⟩

/-- The literals of a module denote the texts of the schema. -/
structure LiteralsDenote (schema : Schema) (options : Options) : Prop where
  /-- Each literal denotes the text that was quoted, -/
  quoted : ∀ text : String, Denotes (Quoted.quote text.toList) text
  /-- and the lines that literals stand on are lines of the module. -/
  lines : ∀ part ∈ literalParts schema options, ∀ l, line l ∈ part → '\n' ∉ l.content →
    ∃ level, l.indented level ∈ split '\n' (generate schema options).toList
  docs : ∀ decl ∈ schema.messages, literalsOn "doc: " (table options.runtime decl) =
    (decl.doc :: decl.fields.map FieldDecl.doc).map fun doc =>
      some ((linePieces doc.toList).map fun piece => String.ofList (trimEnd piece))
  names : ∀ decl ∈ schema.messages, literalsOn "name: " (table options.runtime decl) =
    (decl.name :: decl.fields.map FieldDecl.name).map fun name => some [name]
  publicNames : ∀ decl ∈ schema.messages, literalsOn "public_name: " (table options.runtime decl) =
    decl.fields.map fun field => some [Name.toPublic field.name]
  envSuffixes : ∀ decl ∈ schema.messages, literalsOn "env_suffix: " (table options.runtime decl) =
    decl.fields.map fun field => some [Name.toEnvSuffix field.name]
  enums : Plain options.runtime → ∀ decl ∈ schema.messages,
    literalsOn "kind: " (table options.runtime decl) =
      decl.fields.map fun field => some (enumName? field.type).toList
  /-- A slot has another spelling if that is not the name itself, and the test for being unset. -/
  aliases : ∀ decl ∈ schema.messages, literalsOn "#[serde(alias = " (record decl) =
    (decl.fields.filter fun field => Name.toLowerCamel field.name ≠ field.name).map fun field =>
      some [Name.toLowerCamel field.name, unsetTest field.type]
  /-- The values of an enum stand with its variants, in the table, and in both conversions. -/
  renames : ∀ decl ∈ schema.enums, literalsOn "#[serde(rename = " (enumType decl) =
    decl.type.names.map fun value => some [value]
  values : ∀ decl ∈ schema.enums,
    literalsOn "pub const NAMES: " (enumNames decl) = [some decl.type.names]
  shown : ∀ decl ∈ schema.enums, literalsOn "Self::" (enumNames decl) =
    decl.type.names.map fun value => some [value]
  parsed : ∀ decl ∈ schema.enums, literalsOn "\"" (enumNames decl) =
    decl.type.names.map fun value => some [value]
  /-- No line of code has other literals than it is made of. -/
  code : Plain options.runtime → ∀ step ∈ moduleCode schema options, ∀ pieces,
    step.line? = some (.code pieces) →
      literals? (Line.code pieces).content = some (pieces.filterMap Piece.literal?)

/-- The code of an accepted schema has literals for its texts, and a reader makes out these texts,
whatever characters they have. -/
theorem literals_denote {raw : RawSchema} {schema : Schema} (h : Schema.resolve raw = .ok schema)
    (options : Options) : LiteralsDenote schema options where
  quoted := denotes_quote
  lines := fun _ hpart _ hl hline => line_mem_generate hpart hl hline
  docs := fun decl _ => by
    simp only [literalsOn_table_doc, docLines_eq]
  names := fun decl _ => literalsOn_table_name options.runtime decl
  publicNames := fun decl _ => literalsOn_table_publicName options.runtime decl
  envSuffixes := fun decl _ => literalsOn_table_envSuffix options.runtime decl
  enums := fun hruntime decl hdecl =>
    literalsOn_table_kind (validNames_of_resolve h) hruntime hdecl
  aliases := fun decl _ => literalsOn_record decl
  renames := fun decl hdecl => literalsOn_enumType (validNames_of_resolve h |>.values decl hdecl)
  values := fun decl _ => literalsOn_enumNames_table decl
  shown := fun decl hdecl => literalsOn_enumNames_shown fun value hvalue =>
    plain_toVariant ((validNames_of_resolve h).values decl hdecl value hvalue)
  parsed := fun decl hdecl => literalsOn_enumNames_parsed fun value hvalue =>
    plain_toVariant ((validNames_of_resolve h).values decl hdecl value hvalue)
  code := by
    intro hruntime step hstep pieces hpieces
    rcases legibleBut_moduleCode (validNames_of_resolve h) hruntime step hstep with
      hforeign | hlegible
    · rcases List.mem_cons.1 hforeign with rfl | hdoc
      · exact nomatch hpieces
      · obtain ⟨doc, -, hdoc⟩ := List.mem_flatMap.1 hdoc
        obtain ⟨text, -, rfl⟩ := List.mem_map.1 hdoc
        exact nomatch hpieces
    · refine literals?_of_legible ?_
      cases step with
      | line l | enter l | leave l =>
        obtain rfl := Option.some.inj hpieces
        exact hlegible
      | deeper => exact nomatch hpieces

/-- A declaration whose documentation has quotes, backslashes, a tab, and a line that ends in white
space. -/
def quotedDeclaration : RawSchema where
  enums := [{ name := "Mode", doc := "", values := ["FAST", "SLOW_HTTP"] }]
  messages := [
    { name := "Root", doc := " Say \"no\" \r\n\n\tto \\\" ",
      fields := [⟨"max_rpc", "Mode", "Ends in \\"⟩] }]

def quotedType : EnumType := { name := "Mode", first := "FAST", rest := ["SLOW_HTTP"] }

def quotedRoot : MessageDecl :=
  ⟨"Root", "Say \"no\" \r\n\n\tto \\\"",
    [⟨"max_rpc", .plain (.leaf (.enum quotedType)), "Ends in \\"⟩]⟩

def quotedSchema : Schema := ⟨[⟨quotedType, ""⟩], [quotedRoot]⟩

theorem literals_denote_quotedSchema :
    Schema.resolve quotedDeclaration = .ok quotedSchema ∧ LiteralsDenote quotedSchema {} ∧
      literalsOn "doc: " (table "::htconfig" quotedRoot) =
        [some ["Say \"no\"", "", "\tto \\\""], some ["Ends in \\"]] ∧
      literalsOn "#[serde(alias = " (record quotedRoot) = [some ["maxRpc", "Option::is_none"]] ∧
      literalsOn "kind: " (table "::htconfig" quotedRoot) = [some ["Mode"]] := by
  have hschema : Schema.resolve quotedDeclaration = .ok quotedSchema := rfl
  have hroot : quotedRoot ∈ quotedSchema.messages := List.mem_cons_self
  have hdenote := literals_denote hschema {}
  refine ⟨hschema, hdenote, (hdenote.docs quotedRoot hroot).trans ?_,
    (hdenote.aliases quotedRoot hroot).trans ?_,
    (hdenote.enums (by decide) quotedRoot hroot).trans ?_⟩
  · decide +kernel
  · decide +kernel
  · decide +kernel

end LayeredConfig.Code
