import LayeredConfig.Proofs.Code.Legible
import LayeredConfig.Proofs.Schema.DocLines

/-!
# Comments of generated code

Two texts from outside become comments of generated code: the name of a file, in the
header, and the documentation of a schema.  Documentation is put down line by line, each
line after its own mark, so a line feed does not end the comment.  The name in the header
is not, and in both a carriage return may be left.

The reader of generated code finds a module to be what was meant exactly when the name has
no line break, and no documentation has a carriage return with something after it on its
line (`comments_kept`).
-/

namespace LayeredConfig.Code

open Text Step

/-! ## What a reader makes out -/

namespace Mode

/-- What a reader keeps of a comment has no line break in it. -/
def Sound : Mode → Prop
  | comment text => '\n' ∉ text ∧ '\r' ∉ text
  | _ => True

theorem sound_readLiteral {text : List Char} {c : Char} {escape : Escape} {next : Mode}
    {found : List Lexeme} (h : readLiteral text c escape = some (next, found)) :
    next.Sound ∧ ∀ text, .comment text ∉ found := by
  cases escape <;> simp only [readLiteral, readText, readDigits] at h <;>
    grind [Sound, = Option.map_eq_some_iff, = Option.bind_eq_some_iff]

theorem sound_read {mode next : Mode} {c : Char} {found : List Lexeme} (h : mode.Sound)
    (hread : mode.read c = some (next, found)) :
    next.Sound ∧ ∀ text, .comment text ∈ found → Unbroken text := by
  cases mode with
  | code | tick | slash =>
    simp only [read] at hread
    grind [Sound]
  | comment text =>
    obtain ⟨hline, hreturn⟩ := h
    rw [read] at hread
    split_ifs at hread with hc hc'
    · cases hread
      refine ⟨trivial, fun comment hcomment => ?_⟩
      obtain rfl : comment = String.ofList text := by simpa using hcomment
      exact ⟨by simpa using hline, by simpa using hreturn⟩
    · cases hread
      refine ⟨?_, fun _ hcomment => absurd hcomment List.not_mem_nil⟩
      simp [Sound, hline, hreturn, Ne.symm hc, Ne.symm hc']
  | literal text escape =>
    obtain ⟨hnext, hfound⟩ := sound_readLiteral hread
    exact ⟨hnext, fun text hcomment => absurd hcomment (hfound text)⟩

end Mode

theorem Reads.unbroken {before after : Mode} {text : List Char} {found : List Lexeme}
    (h : Reads before text found after) (hbefore : before.Sound) :
    ∀ comment, .comment comment ∈ found → Unbroken comment := by
  induction text generalizing before found with
  | nil =>
    obtain ⟨-, rfl⟩ := reads_nil_iff.1 h
    exact fun _ hcomment => absurd hcomment List.not_mem_nil
  | cons c cs ih =>
    obtain ⟨next, first, rest, hc, hcs, rfl⟩ := h.exists_cons
    obtain ⟨hnext, hfirst⟩ := Mode.sound_read hbefore hc
    intro comment hcomment
    rcases List.mem_append.1 hcomment with hcomment | hcomment
    · exact hfirst comment hcomment
    · exact ih hcs hnext comment hcomment

theorem lexemes_subset_lexemesAll {l : Line} {steps : List Step} (h : line l ∈ steps)
    (level : Nat) : l.lexemes ⊆ lexemesAll level steps := by
  induction steps generalizing level with
  | nil => exact absurd h List.not_mem_nil
  | cons step steps ih =>
    rw [lexemesAll]
    rcases List.mem_cons.1 h with rfl | h
    · have hline : l.lexemes ⊆ l.lexemesAt level := by
        cases l with
        | blank => exact List.nil_subset _
        | comment | doc | code =>
          exact List.subset_append_of_subset_left _ (List.subset_append_right _ _)
      exact List.subset_append_of_subset_left _ hline
    · exact List.subset_append_of_subset_right _ (ih h _)

/-- A comment that is read as it is meant has no line break in it. -/
theorem legible_of_reads {steps : List Step} {level : Nat} {text : List Char} {after : Mode}
    (h : Reads (.code false) text (lexemesAll level steps) after) {l : Line}
    (hl : line l ∈ steps) (hcomment : ∀ pieces, l ≠ .code pieces) : (line l).Legible := by
  have hunbroken := h.unbroken trivial
  have hsub := lexemes_subset_lexemesAll hl level
  cases l with
  | blank => exact trivial
  | comment text =>
    exact (unbroken_append_iff.1 (hunbroken _ (hsub List.mem_cons_self))).2
  | doc text =>
    have htext := hunbroken _ (hsub List.mem_cons_self)
    by_cases hempty : text = ""
    · subst hempty
      exact (by decide : Unbroken "")
    · rw [if_neg hempty] at htext
      exact (unbroken_append_iff.1 htext).2
  | code pieces => exact absurd rfl (hcomment pieces)

/-! ## Where comments stand -/

theorem writeAll_append (steps more : List Step) (level : Nat) :
    writeAll level (steps ++ more) =
      writeAll level steps ++ writeAll (steps.foldl after level) more := by
  induction steps generalizing level with
  | nil => rfl
  | cons step steps ih =>
    rw [List.cons_append, writeAll, writeAll, ih, List.append_assoc]
    rfl

def Line.indented (level : Nat) : Line → List Char
  | .blank => []
  | l => List.replicate (4 * level) ' ' ++ l.content

theorem write_eq_indented (level : Nat) (l : Line) :
    l.write level = l.indented level ++ ['\n'] := by
  cases l <;> rfl

theorem writeAll_map_line (level : Nat) (lines : List Line) :
    writeAll level (lines.map Step.line) =
      (lines.map (Line.indented level)).flatMap fun line => line ++ ['\n'] := by
  induction lines with
  | nil => rfl
  | cons l lines ih =>
    rw [List.map_cons, List.map_cons, writeAll, List.flatMap_cons, ← write_eq_indented]
    exact congrArg _ ih

theorem exists_writeAll_cons (l : Line) (steps : List Step) (level : Nat) :
    ∃ cs, writeAll level (line l :: steps) = cs ++ ['\n'] := by
  have hrest : ∀ (steps : List Step) (level : Nat),
      writeAll level steps = [] ∨ ∃ cs, writeAll level steps = cs ++ ['\n'] := by
    intro steps
    induction steps with
    | nil => exact fun _ => Or.inl rfl
    | cons step steps ih =>
      intro level
      rw [writeAll]
      rcases ih (step.after level) with hnil | ⟨cs, hcs⟩
      · rw [hnil, List.append_nil]
        cases step with
        | line l | enter l | leave l => exact Or.inr ⟨_, write_eq_indented _ l⟩
        | deeper => exact Or.inl rfl
      · exact Or.inr ⟨step.write level ++ cs, by rw [hcs, List.append_assoc]⟩
  rw [writeAll]
  rcases hrest steps level with hnil | ⟨more, hmore⟩
  · exact ⟨l.indented level, by rw [after, hnil, List.append_nil]; exact write_eq_indented level l⟩
  · exact ⟨l.write level ++ more, by rw [after, hmore, List.append_assoc]; rfl⟩

theorem split_flatMap_append {lines : List (List Char)} (h : ∀ line ∈ lines, '\n' ∉ line)
    (rest : List Char) :
    split '\n' (lines.flatMap (fun line => line ++ ['\n']) ++ rest) = lines ++ split '\n' rest := by
  induction lines with
  | nil => rfl
  | cons line lines ih =>
    obtain ⟨hline, hlines⟩ := List.forall_mem_cons.1 h
    rw [List.flatMap_cons, List.append_assoc, List.append_assoc, List.singleton_append,
      split_append_cons hline, ih hlines]
    rfl

theorem lines_infix_generate {schema : Schema} {options : Options} {lines : List Line}
    (h : lines.map Step.line <:+: (moduleCode schema options).tail)
    (hlines : ∀ l ∈ lines, '\n' ∉ l.content) : ∃ level,
      lines.map (Line.indented level) <:+: split '\n' (generate schema options).toList := by
  obtain ⟨before, after, hbody⟩ := h
  have hmodule : moduleCode schema options =
      (header options :: before) ++ (lines.map Step.line ++ after) := by
    rw [List.cons_append, ← List.append_assoc, hbody]
    rfl
  obtain ⟨cs, hcs⟩ : ∃ cs, writeAll 0 (header options :: before) = cs ++ ['\n'] :=
    exists_writeAll_cons _ before 0
  generalize hlevel : (header options :: before).foldl Step.after 0 = level
  have htext : ∃ rest, (generate schema options).toList = cs ++ '\n' ::
      ((lines.map (Line.indented level)).flatMap (fun line => line ++ ['\n']) ++ rest) := by
    rw [generate, String.toList_ofList, hmodule, writeAll_append, hcs, writeAll_append, hlevel,
      writeAll_map_line, List.append_assoc]
    exact ⟨_, rfl⟩
  obtain ⟨rest, hrest⟩ := htext
  have hindented : ∀ line ∈ lines.map (Line.indented level), '\n' ∉ line := by
    refine List.forall_mem_map.2 fun l hl => ?_
    have hcontent := hlines l hl
    cases l with
    | blank => exact List.not_mem_nil
    | comment | doc | code => simp [Line.indented, hcontent]
  refine ⟨level, split '\n' cs, split '\n' rest, ?_⟩
  rw [hrest, split_append_sep, split_flatMap_append hindented, List.append_assoc]

/-! ## Documentation -/

theorem infix_flatMap {α : Type} {items : List α} {a : α} (h : a ∈ items) (f : α → List Step) :
    f a <:+: items.flatMap f := by
  obtain ⟨before, after, rfl⟩ := List.append_of_mem h
  exact ⟨before.flatMap f, after.flatMap f, by simp⟩

theorem docs_prefix_enumCode (decl : EnumDecl) : docs decl.doc <+: enumCode decl := by
  simp only [enumCode, enumType, List.append_assoc]
  exact List.prefix_append _ _

theorem docs_infix_record {decl : MessageDecl} {doc : String}
    (h : doc ∈ decl.doc :: decl.fields.map FieldDecl.doc) : docs doc <:+: record decl := by
  rcases List.mem_cons.1 h with rfl | h
  · simp only [record, List.append_assoc]
    exact (List.prefix_append _ _).isInfix
  · obtain ⟨field, hfield, rfl⟩ := List.mem_map.1 h
    have hslot : docs field.doc <:+: slot field := (List.prefix_append _ _).isInfix
    have hslots := hslot.trans (infix_flatMap hfield slot)
    rw [record]
    exact hslots.trans ⟨_, [.closeBrace], rfl⟩

theorem record_prefix_messageCode (runtime : String) (decl : MessageDecl) :
    record decl <+: messageCode runtime decl := by
  rw [messageCode, List.append_assoc]
  exact List.prefix_append _ _

theorem docs_infix_moduleCode {schema : Schema} {doc : String} (h : doc ∈ documentation schema)
    (options : Options) : docs doc <:+: (moduleCode schema options).tail := by
  rw [moduleCode, List.tail_cons]
  rcases List.mem_append.1 h with h | h
  · obtain ⟨decl, hdecl, rfl⟩ := List.mem_map.1 h
    have hcode := infix_flatMap hdecl fun decl => .gap :: enumCode decl
    exact ((List.infix_cons (docs_prefix_enumCode decl).isInfix).trans hcode).trans
      (List.prefix_append _ _).isInfix
  · obtain ⟨decl, hdecl, hdoc⟩ := List.mem_flatMap.1 h
    have hcode := infix_flatMap hdecl fun decl =>
      .gap :: messageCode options.runtime decl
    have hrecord := (record_prefix_messageCode options.runtime decl).isInfix
    exact (((docs_infix_record hdoc).trans (List.infix_cons hrecord)).trans hcode).trans
      (List.suffix_append _ _).isInfix

def docLine (level : Nat) (line : String) : List Char :=
  List.replicate (4 * level) ' ' ++ ("///".toList ++ if line = "" then [] else ' ' :: line.toList)

theorem content_doc (line : String) :
    (Line.doc line).content = "///".toList ++ if line = "" then [] else ' ' :: line.toList := by
  rw [Line.content]
  split <;> rfl

theorem docLines_infix_generate {schema : Schema} {doc : String} (h : doc ∈ documentation schema)
    (options : Options) : ∃ level,
      (docLines doc).map (docLine level) <:+: split '\n' (generate schema options).toList := by
  have hdocs : docs doc = ((docLines doc).map Line.doc).map Step.line := by
    rw [List.map_map]
    rfl
  have hlines : ∀ l ∈ (docLines doc).map Line.doc, '\n' ∉ l.content := by
    refine List.forall_mem_map.2 fun line hline => ?_
    have hbreak := not_mem_of_mem_docLines hline
    rw [content_doc]
    split <;> simp [hbreak]
  obtain ⟨level, hin⟩ := lines_infix_generate (hdocs ▸ docs_infix_moduleCode h options) hlines
  have hindented : ((docLines doc).map Line.doc).map (Line.indented level) =
      (docLines doc).map (docLine level) := by
    rw [List.map_map]
    exact List.map_congr_left fun line _ => congrArg _ (content_doc line)
  exact ⟨level, hindented ▸ hin⟩

/-! ## The header -/

def headerText (options : Options) : List Char :=
  ((header options).line?.map Line.content).getD []

/-- The header has the mark of a comment, and the name of the file as it is. -/
theorem exists_headerText (options : Options) : ∃ before after, headerText options =
    "// ".toList ++ before ++ (options.sourceName.getD "").toList ++ after ∧
      '\n' ∉ before ∧ '\r' ∉ before ∧ '\n' ∉ after ∧ '\r' ∉ after := by
  obtain ⟨runtime, sourceName⟩ := options
  cases sourceName with
  | none =>
    refine ⟨"@generated by htconfig. Do not edit.".toList, [], ?_, by decide +kernel⟩
    simp [headerText, header, Step.line?, Line.content]
  | some name =>
    refine ⟨"@generated by htconfig from ".toList, ". Do not edit.".toList, ?_, by decide +kernel⟩
    simp [headerText, header, Step.line?, Line.content]

theorem length_split (sep : Char) (cs : List Char) : (split sep cs).length = cs.count sep + 1 := by
  induction cs with
  | nil => rfl
  | cons c cs ih =>
    obtain ⟨piece, pieces, hsplit⟩ := List.exists_cons_of_ne_nil (split_ne_nil sep cs)
    rw [split, hsplit]
    rw [hsplit] at ih
    split
    · rename_i hc
      subst hc
      simpa using ih
    · rename_i hc
      rw [List.count_cons_of_ne hc]
      exact ih

/-- The header takes a line, and another one for each line feed in the name of the file. -/
theorem length_split_headerText (options : Options) : (split '\n' (headerText options)).length =
    (options.sourceName.getD "").toList.count '\n' + 1 := by
  obtain ⟨before, after, htext, hbefore, -, hafter, -⟩ := exists_headerText options
  have hmark : "// ".toList.count '\n' = 0 := by decide
  rw [length_split, htext, List.count_append, List.count_append, List.count_append, hmark,
    List.count_eq_zero.2 hbefore, List.count_eq_zero.2 hafter]
  omega

theorem headerText_prefix (schema : Schema) (options : Options) :
    split '\n' (headerText options) <+: split '\n' (generate schema options).toList := by
  have htext : (generate schema options).toList = headerText options ++ '\n' ::
      writeAll 0 (moduleCode schema options).tail := by
    rw [generate, String.toList_ofList, moduleCode, List.tail_cons, writeAll, header, headerText]
    simp [Step.write, Line.write, Step.line?, Step.after, header]
  rw [htext, split_append_sep]
  exact List.prefix_append _ _

/-! ## Modules -/

theorem legible_header_iff (options : Options) :
    (header options).Legible ↔ ∀ name ∈ options.sourceName, Unbroken name := by
  obtain ⟨runtime, sourceName⟩ := options
  cases sourceName with
  | none =>
    refine iff_of_true ?_ (fun _ h => nomatch h)
    exact (by decide +kernel : Unbroken "@generated by htconfig. Do not edit.")
  | some name =>
    have hbefore : Unbroken "@generated by htconfig from " := by decide +kernel
    have hafter : Unbroken ". Do not edit." := by decide +kernel
    have hlegible : (header ⟨runtime, some name⟩).Legible ↔
        Unbroken ("@generated by htconfig from " ++ name ++ ". Do not edit.") := Iff.rfl
    simp [hlegible, unbroken_append_iff, hbefore, hafter]

/-- The lines of a documentation are legible if no carriage return is left in them. -/
theorem legible_docs_iff (doc : String) :
    (∀ step ∈ docs doc, step.Legible) ↔ ¬ ReturnsInside doc.toList := by
  rw [docs, List.forall_mem_map, ← return_mem_docLines_iff]
  simp only [not_exists, not_and]
  exact forall₂_congr fun line hline => and_iff_right (not_mem_of_mem_docLines hline)

/-- A reader finds a module to be what was meant if and only if the texts from outside that
it takes as comments fit into them. -/
theorem reads_generate_iff {schema : Schema} (hnames : ValidNames schema) {options : Options}
    (hruntime : Plain options.runtime) :
    lexemes? (generate schema options).toList = some (lexemesAll 0 (moduleCode schema options)) ↔
      (∀ name ∈ options.sourceName, Unbroken name) ∧
        ∀ doc ∈ documentation schema, ¬ ReturnsInside doc.toList := by
  rw [lexemes?_eq_some_iff, generate, String.toList_ofList, ← legible_header_iff]
  simp only [← legible_docs_iff]
  constructor
  · rintro ⟨word, hreads⟩
    have hcomment : ∀ l, line l ∈ moduleCode schema options → (∀ pieces, l ≠ .code pieces) →
        (line l).Legible := fun l hl hne => legible_of_reads hreads hl hne
    refine ⟨hcomment _ List.mem_cons_self (by simp), fun doc hdoc => ?_⟩
    refine List.forall_mem_map.2 fun text htext => ?_
    have hmem : Step.doc text ∈ docs doc := List.mem_map_of_mem htext
    have hmodule := List.mem_of_mem_tail ((docs_infix_moduleCode hdoc options).subset hmem)
    exact hcomment _ hmodule (by simp)
  · rintro ⟨hheader, hdocs⟩
    refine ⟨false, reads_writeAll (fun step hstep => ?_) 0⟩
    rcases legibleBut_moduleCode hnames hruntime step hstep with hforeign | hlegible
    · rcases List.mem_cons.1 hforeign with rfl | hdoc
      · exact hheader
      · obtain ⟨doc, hdoc, hstep⟩ := List.mem_flatMap.1 hdoc
        exact hdocs doc hdoc step hstep
    · exact hlegible

/-- What becomes of the texts from outside that stand in the comments of a module. -/
structure KeepsComments (schema : Schema) (options : Options) : Prop where
  /-- The module begins with the header, -/
  header : split '\n' (headerText options) <+: split '\n' (generate schema options).toList
  /-- which begins with the mark of a comment. -/
  headerMark : "// ".toList <+: headerText options
  /-- It takes a line, and another one for each line feed in the name of the file. -/
  headerLength : (split '\n' (headerText options)).length =
    (options.sourceName.getD "").toList.count '\n' + 1
  headerReturn : '\r' ∈ headerText options ↔ ∃ name ∈ options.sourceName, '\r' ∈ name.toList
  /-- The lines of a documentation are lines of the module, each with its own mark. -/
  docs : ∀ doc ∈ documentation schema, ∃ level,
    (docLines doc).map (docLine level) <:+: split '\n' (generate schema options).toList
  docReturn : ∀ doc ∈ documentation schema,
    (∃ line ∈ docLines doc, '\r' ∈ line.toList) ↔ ReturnsInside doc.toList
  /-- A reader takes nothing of these texts for code, and refuses nothing, exactly then: -/
  read : Plain options.runtime →
    (lexemes? (generate schema options).toList = some (lexemesAll 0 (moduleCode schema options)) ↔
      (∀ name ∈ options.sourceName, Unbroken name) ∧
        ∀ doc ∈ documentation schema, ¬ ReturnsInside doc.toList)

/-- The documentation of an accepted schema stays in its comments, and the name of a file does
if it has no line feed.  No carriage return gets there unless the name has one, or a
documentation has one with something after it on its line. -/
theorem comments_kept {raw : RawSchema} {schema : Schema} (h : Schema.resolve raw = .ok schema)
    (options : Options) : KeepsComments schema options where
  header := headerText_prefix schema options
  headerMark := by
    obtain ⟨before, after, htext, -⟩ := exists_headerText options
    rw [htext, List.append_assoc, List.append_assoc]
    exact List.prefix_append _ _
  headerLength := length_split_headerText options
  headerReturn := by
    obtain ⟨before, after, htext, -, hbefore, -, hafter⟩ := exists_headerText options
    rw [htext]
    cases options.sourceName <;> simp [hbefore, hafter]
  docs := fun _ hdoc => docLines_infix_generate hdoc options
  docReturn := fun _ _ => return_mem_docLines_iff
  read := reads_generate_iff (validNames_of_resolve h)

theorem comments_kept_variedSchema :
    Schema.resolve variedDeclaration = .ok variedSchema ∧
      KeepsComments variedSchema { sourceName := some "app.toml" } ∧
      lexemes? (generate variedSchema { sourceName := some "app.toml" }).toList =
        some (lexemesAll 0 (moduleCode variedSchema { sourceName := some "app.toml" })) := by
  have hschema : Schema.resolve variedDeclaration = .ok variedSchema := rfl
  have hkept := comments_kept hschema { sourceName := some "app.toml" }
  refine ⟨hschema, hkept, (hkept.read (by decide)).2 ⟨?_, ?_⟩⟩
  · rintro _ ⟨⟩
    decide
  · have hreturn : ∀ doc ∈ documentation variedSchema, '\r' ∉ doc.toList := by decide
    rintro doc hdoc ⟨between, c, -, -, hin⟩
    exact hreturn doc hdoc (hin.subset (by simp))

def returnSchema : Schema := ⟨[], [⟨"Root", "a\rb", []⟩]⟩

/-- A name with a line feed goes on as code.  A carriage return within a documentation gets into
the comment, where it is refused. -/
theorem comments_not_kept :
    (Schema.resolve {} = .ok ⟨[], []⟩ ∧
      split '\n' (generate ⟨[], []⟩ { sourceName := some "a\nb.toml" }).toList =
        ["// @generated by htconfig from a".toList, "b.toml. Do not edit.".toList, []] ∧
      lexemes? (generate ⟨[], []⟩ { sourceName := some "a\nb.toml" }).toList =
        some (.comment " @generated by htconfig from a" ::
          "\nb.toml. Do not edit.\n".toList.map .plain)) ∧
    Schema.resolve { messages := [{ name := "Root", doc := "a\rb" }] } = .ok returnSchema ∧
      (∃ level, docLine level "a\rb" ∈ split '\n' (generate returnSchema {}).toList) ∧
      lexemes? (generate returnSchema {}).toList ≠
        some (lexemesAll 0 (moduleCode returnSchema {})) := by
  have hschema : Schema.resolve { messages := [{ name := "Root", doc := "a\rb" }] } =
      .ok returnSchema := rfl
  have hdoc : "a\rb" ∈ documentation returnSchema := List.mem_cons_self
  have hreturn : ReturnsInside "a\rb".toList :=
    ⟨[], 'b', List.not_mem_nil, by decide, ['a'], [], rfl⟩
  refine ⟨by decide +kernel, hschema, ?_, fun hread => ?_⟩
  · obtain ⟨level, hin⟩ := docLines_infix_generate hdoc {}
    exact ⟨level, hin.subset List.mem_cons_self⟩
  · obtain ⟨-, hdocs⟩ := (reads_generate_iff (validNames_of_resolve hschema) (by decide)).1 hread
    exact hdocs _ hdoc hreturn

end LayeredConfig.Code
