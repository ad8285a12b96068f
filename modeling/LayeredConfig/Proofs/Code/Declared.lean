import LayeredConfig.Proofs.Code.Level
import LayeredConfig.Proofs.Schema.Resolve
import LayeredConfig.Proofs.Schema.Spelling

/-!
# The names that generated code declares

The names are read off the lines of the code: a line declares what stands
between a keyword and the next delimiter.  In the code of an accepted schema
these are the declared names, the variants of an enum's values, the names of a
message's fields, and for the methods the names of the fields together with the
setters of maps.  None of these lists has a name twice.
-/

namespace LayeredConfig.Code

open Text Step

def Step.line? : Step → Option Line
  | line l | enter l | leave l => some l
  | deeper => none

/-- The name between `keyword` at the beginning of a line of code and the next
`stop`. -/
def declaredName? (keyword : String) (stop : Char) : Line → Option String
  | .code [.code text] => do
    let (name, _) ← splitOnce? stop (← dropStart? keyword.toList text.toList)
    some (String.ofList name)
  | _ => none

/-- The name that an identifier stands for: reserved words are written with a
mark in front. -/
def unescape (identifier : String) : String :=
  ((dropStart? "r#".toList identifier.toList).map String.ofList).getD identifier

def typeName? (l : Line) : Option String :=
  (declaredName? "pub enum " ' ' l).or (declaredName? "pub struct " ' ' l)

/-- The types declared at the top of a module. -/
def typeNames (steps : List Step) : List String := (topLines 0 steps).filterMap typeName?

/-- The names that the lines of some code declare, wherever they stand. -/
def namesOn (name? : Line → Option String) (steps : List Step) : List String :=
  steps.filterMap fun step => step.line?.bind name?

/-- The variant on a line of an enum: what stands before a comma at its end. -/
def variantName? : Line → Option String
  | .code [.code text] => (dropLast? ',' text.toList).map String.ofList
  | _ => none

def slotName? (l : Line) : Option String := (declaredName? "pub " ':' l).map unescape

def methodName? (l : Line) : Option String := (declaredName? "pub fn " '(' l).map unescape

def slotIdentifier? (l : Line) : Option String := declaredName? "pub " ':' l

def methodIdentifier? (l : Line) : Option String := declaredName? "pub fn " '(' l

/-! ## Reading a line -/

theorem declaredName?_eq_some_iff {keyword : String} {stop : Char} {text name : String} :
    declaredName? keyword stop (.code [.code text]) = some name ↔
      ∃ rest, stop ∉ name.toList ∧
        text.toList = keyword.toList ++ (name.toList ++ stop :: rest) := by
  simp only [declaredName?, Option.bind_eq_bind, Option.bind_eq_some_iff, dropStart?_eq_some_iff,
    splitOnce?_eq_some_iff, Prod.exists, Option.some.injEq]
  constructor
  · rintro ⟨_, htext, cs, rest, ⟨hname, rfl⟩, rfl⟩
    rw [String.toList_ofList]
    exact ⟨rest, hname, htext⟩
  · rintro ⟨rest, hname, htext⟩
    exact ⟨_, htext, name.toList, rest, ⟨hname, rfl⟩, String.ofList_toList⟩

theorem declaredName?_eq_some {keyword : String} {stop : Char} {text : String} (name : String)
    (rest : List Char) (htext : text.toList = keyword.toList ++ (name.toList ++ stop :: rest))
    (hname : stop ∉ name.toList) :
    declaredName? keyword stop (.code [.code text]) = some name :=
  declaredName?_eq_some_iff.2 ⟨rest, hname, htext⟩

theorem declaredName?_eq_none {keyword : String} {stop : Char} {text : String} {k : Char}
    {ks : List Char} (hkeyword : keyword.toList = k :: ks) (h : text.toList.head? ≠ some k) :
    declaredName? keyword stop (.code [.code text]) = none := by
  refine Option.eq_none_iff_forall_ne_some.2 fun name hname => h ?_
  obtain ⟨rest, -, htext⟩ := declaredName?_eq_some_iff.1 hname
  rw [htext, hkeyword]
  rfl

theorem declaredName?_eq_none_of_not_mem {keyword : String} {stop : Char} {text : String}
    (h : stop ∉ text.toList) : declaredName? keyword stop (.code [.code text]) = none := by
  refine Option.eq_none_iff_forall_ne_some.2 fun name hname => h ?_
  obtain ⟨rest, -, htext⟩ := declaredName?_eq_some_iff.1 hname
  rw [htext]
  simp

theorem typeName?_eq_none {text : String} (h : text.toList.head? ≠ some 'p') :
    typeName? (.code [.code text]) = none := by
  rw [typeName?, declaredName?_eq_none rfl h, declaredName?_eq_none rfl h]
  rfl

/-! ## Types -/

theorem typeNames_append {steps : List Step} (h : Balanced steps) (more : List Step) :
    typeNames (steps ++ more) = typeNames steps ++ typeNames more := by
  rw [typeNames, topLines_append_of_balanced h, List.filterMap_append]
  rfl

theorem typeNames_flatMap {α : Type} {items : List α} {f : α → List Step}
    (h : ∀ a ∈ items, Balanced (f a)) :
    typeNames (items.flatMap f) = items.flatMap fun a => typeNames (f a) := by
  induction items with
  | nil => rfl
  | cons a items ih =>
    obtain ⟨ha, hitems⟩ := List.forall_mem_cons.1 h
    rw [List.flatMap_cons, typeNames_append ha, ih hitems, List.flatMap_cons]

theorem typeNames_docs (doc : String) : typeNames (docs doc) = [] := by
  rw [typeNames, docs]
  refine (congrArg _ (topLines_map_line _ _)).trans ?_
  rw [List.filterMap_map]
  exact List.filterMap_eq_nil_iff.2 fun _ _ => rfl

theorem typeNames_line {l : Line} (h : typeName? l = none) (steps : List Step) :
    typeNames (.line l :: steps) = typeNames steps :=
  List.filterMap_cons_none h

theorem typeNames_gap (steps : List Step) : typeNames (.gap :: steps) = typeNames steps :=
  typeNames_line rfl steps

theorem typeNames_block {first : Line} {rest : List Step}
    (hrest : topLines 1 rest = [.code [.code "\x7d"]]) :
    typeNames (.enter first :: rest) = (typeName? first).toList := by
  have hlast : typeName? (.code [.code "\x7d"]) = none := rfl
  have hlines : topLines 0 (.enter first :: rest) = [first, .code [.code "\x7d"]] :=
    congrArg (first :: ·) hrest
  rw [typeNames, hlines, List.filterMap_cons, List.filterMap_cons_none hlast]
  cases typeName? first <;> rfl

theorem typeName?_enum {name : String} (h : Name.isTypeName name = true) :
    typeName? (.code [.code ("pub enum " ++ name ++ " \x7b")]) = some name := by
  rw [typeName?, declaredName?_eq_some name ['\x7b'] (by simp)
    ((FieldType.word_of_isTypeName h).not_mem (by decide))]
  rfl

theorem typeName?_struct {name : String} (h : Name.isTypeName name = true) :
    typeName? (.code [.code ("pub struct " ++ name ++ " \x7b")]) = some name := by
  have henum : declaredName? "pub enum " ' ' (.code [.code ("pub struct " ++ name ++ " \x7b")]) =
      none := by
    simp [declaredName?, dropStart?]
  rw [typeName?, henum, declaredName?_eq_some name ['\x7b'] (by simp)
    ((FieldType.word_of_isTypeName h).not_mem (by decide))]
  rfl

theorem typeNames_enumType {decl : EnumDecl} (h : Name.isTypeName decl.type.name = true) :
    typeNames (enumType decl) = [decl.type.name] := by
  have hbody : topLines 1 (.text "#[default]" :: (variants decl.type.names ++ [.closeBrace])) =
      [.code [.code "\x7d"]] := topLines_succ_append (balanced_variants _) 0 _
  rw [enumType, List.append_assoc, List.append_assoc, typeNames_append (balanced_docs _),
    typeNames_docs, List.nil_append]
  refine (typeNames_line (typeName?_eq_none (by decide)) _).trans ?_
  refine (typeNames_block hbody).trans ?_
  rw [typeName?_enum h]
  rfl

theorem typeName?_impl (text : String) : typeName? (.code [.code ("impl " ++ text)]) = none :=
  typeName?_eq_none (by simp)

theorem typeNames_enumNames (decl : EnumDecl) : typeNames (enumNames decl) = [] := by
  rw [enumNames, List.append_assoc, List.append_assoc, List.append_assoc, String.append_assoc]
  refine (typeNames_block ?_).trans ?_
  · exact (topLines_succ_append (balanced_map_line _ _) 2 _).trans
      (topLines_succ_append (balanced_map_line _ _) 2 _)
  · rw [typeName?_impl]
    rfl

theorem typeNames_enumDisplay (decl : EnumDecl) : typeNames (enumDisplay decl) = [] := by
  refine (typeNames_block rfl).trans ?_
  rw [typeName?_eq_none (by simp)]
  rfl

theorem typeNames_enumCode {decl : EnumDecl} (h : Name.isTypeName decl.type.name = true) :
    typeNames (enumCode decl) = [decl.type.name] := by
  rw [enumCode, List.append_assoc, List.append_assoc, List.append_assoc,
    typeNames_append (balanced_enumType decl), List.singleton_append, typeNames_gap,
    typeNames_append (balanced_enumNames decl), List.singleton_append, typeNames_gap,
    typeNames_enumType h, typeNames_enumNames, typeNames_enumDisplay]
  rfl

theorem typeNames_record {decl : MessageDecl} (h : Name.isTypeName decl.name = true) :
    typeNames (record decl) = [decl.name] := by
  rw [record, List.append_assoc, List.append_assoc, typeNames_append (balanced_docs _),
    typeNames_docs, List.nil_append]
  refine (typeNames_line (typeName?_eq_none (by decide)) _).trans ?_
  refine (typeNames_line (typeName?_eq_none (by decide)) _).trans ?_
  refine (typeNames_block ?_).trans ?_
  · exact topLines_succ_append (balanced_flatMap fun field _ => balanced_slot field) 0 _
  · rw [typeName?_struct h]
    rfl

theorem typeNames_recordMethods (decl : MessageDecl) : typeNames (recordMethods decl) = [] := by
  rw [recordMethods, List.append_assoc, String.append_assoc]
  refine (typeNames_block ?_).trans ?_
  · exact topLines_succ_append (balanced_spaced_methods _) 0 _
  · rw [typeName?_impl]
    rfl

theorem typeNames_overlay (runtime : String) (decl : MessageDecl) :
    typeNames (overlay runtime decl) = [] := by
  rw [overlay, List.append_assoc, List.append_assoc, List.append_assoc]
  refine (typeNames_block ?_).trans ?_
  · exact (topLines_succ_append (balanced_table runtime decl) 0 _).trans
      (topLines_succ_append (balanced_routine runtime decl) 0 _)
  · rw [typeName?_eq_none (by simp)]
    rfl

theorem typeNames_messageCode (runtime : String) {decl : MessageDecl}
    (h : Name.isTypeName decl.name = true) :
    typeNames (messageCode runtime decl) = [decl.name] := by
  rw [messageCode, List.append_assoc, typeNames_append (balanced_record decl), typeNames_record h]
  split
  · rw [List.nil_append, typeNames_gap, typeNames_overlay]
    rfl
  · rw [typeNames_append (balanced_recordMethods decl).cons_gap, typeNames_gap, typeNames_gap,
      typeNames_recordMethods, typeNames_overlay]
    rfl

/-- The types of a module are the enums and the messages, in order. -/
theorem typeNames_moduleCode {schema : Schema} (options : Options)
    (henums : ∀ decl ∈ schema.enums, Name.isTypeName decl.type.name = true)
    (hmessages : ∀ decl ∈ schema.messages, Name.isTypeName decl.name = true) :
    typeNames (moduleCode schema options) =
      schema.enums.map (fun decl => decl.type.name) ++
        schema.messages.map MessageDecl.name := by
  have henumCode : ∀ decl ∈ schema.enums, Balanced (.gap :: enumCode decl) :=
    fun decl _ => (balanced_enumCode decl).cons_gap
  have hmessageCode : ∀ decl ∈ schema.messages,
      Balanced (.gap :: messageCode options.runtime decl) :=
    fun decl _ => (balanced_messageCode options.runtime decl).cons_gap
  have henumNames : (schema.enums.flatMap fun decl => typeNames (.gap :: enumCode decl)) =
      schema.enums.map fun decl => decl.type.name := by
    rw [List.map_eq_flatMap]
    refine List.flatMap_congr fun decl hdecl => ?_
    rw [typeNames_gap, typeNames_enumCode (henums decl hdecl)]
  have hmessageNames : (schema.messages.flatMap fun decl =>
      typeNames (.gap :: messageCode options.runtime decl)) =
      schema.messages.map MessageDecl.name := by
    rw [List.map_eq_flatMap]
    refine List.flatMap_congr fun decl hdecl => ?_
    rw [typeNames_gap, typeNames_messageCode _ (hmessages decl hdecl)]
  rw [moduleCode, header, typeNames_line rfl, typeNames_append (balanced_flatMap henumCode),
    typeNames_flatMap henumCode, typeNames_flatMap hmessageCode, henumNames, hmessageNames]

/-! ## Members -/

section

variable {name? : Line → Option String}

theorem namesOn_append (steps more : List Step) :
    namesOn name? (steps ++ more) = namesOn name? steps ++ namesOn name? more :=
  List.filterMap_append

theorem namesOn_cons_of_none {step : Step} {l : Line} (hstep : step.line? = some l)
    (h : name? l = none) (steps : List Step) :
    namesOn name? (step :: steps) = namesOn name? steps :=
  List.filterMap_cons_none (by rw [hstep]; exact h)

theorem namesOn_cons_of_some {step : Step} {l : Line} {name : String}
    (hstep : step.line? = some l) (h : name? l = some name) (steps : List Step) :
    namesOn name? (step :: steps) = name :: namesOn name? steps :=
  List.filterMap_cons_some (by rw [hstep]; exact h)

theorem namesOn_map (f : String → String) (steps : List Step) :
    namesOn (fun l => (name? l).map f) steps = (namesOn name? steps).map f := by
  rw [namesOn, namesOn, List.map_filterMap]
  refine List.filterMap_congr fun step _ => ?_
  cases step.line? <;> rfl

theorem namesOn_flatMap {α : Type} (items : List α) (f : α → List Step) :
    namesOn name? (items.flatMap f) = items.flatMap fun a => namesOn name? (f a) :=
  List.filterMap_flatMap

theorem namesOn_docs (name? : Line → Option String) (h : ∀ text, name? (.doc text) = none)
    (doc : String) :
    namesOn name? (docs doc) = [] := by
  rw [namesOn, docs, List.filterMap_map]
  exact List.filterMap_eq_nil_iff.2 fun text _ => h text

theorem namesOn_spaced (h : name? .blank = none) (groups : List (List Step)) :
    namesOn name? (spaced groups) = groups.flatMap (namesOn name?) := by
  have hgap : namesOn name? [.gap] = [] := List.filterMap_cons_none h
  induction groups with
  | nil => rfl
  | cons group groups ih =>
    cases groups with
    | nil => exact (List.append_nil _).symm
    | cons next groups =>
      rw [spaced, namesOn_append, namesOn_append, hgap, ih, List.append_nil,
        List.flatMap_cons (x := group)]

end

theorem variantName?_eq_none {text : String} (start : List Char) {c : Char}
    (h : text.toList = start ++ [c]) (hc : c ≠ ',') : variantName? (.code [.code text]) = none := by
  refine Option.eq_none_iff_forall_ne_some.2 fun name hname => hc ?_
  obtain ⟨cs, hcs, -⟩ := Option.map_eq_some_iff.1 hname
  have heq := h.symm.trans (dropLast?_eq_some_iff.1 hcs)
  exact List.singleton_inj.1 (List.append_inj_right' heq rfl)

theorem variantName?_eq_some (name : String) :
    variantName? (.code [.code (name ++ ",")]) = some name := by
  have hlast : dropLast? ',' (name ++ ",").toList = some name.toList :=
    dropLast?_eq_some_iff.2 String.toList_append
  rw [variantName?, hlast, Option.map_some, String.ofList_toList]

theorem variantNames_enumType (decl : EnumDecl) :
    namesOn variantName? (enumType decl) =
      decl.type.names.map Name.toVariant := by
  have hvariants : namesOn variantName? (variants decl.type.names) =
      decl.type.names.map Name.toVariant := by
    rw [variants, namesOn_flatMap, List.map_eq_flatMap]
    refine List.flatMap_congr fun value _ => ?_
    rw [namesOn_cons_of_none rfl rfl, namesOn_cons_of_some rfl (variantName?_eq_some _)]
    rfl
  have hheader : variantName? (.code [.code ("pub enum " ++ decl.type.name ++ " \x7b")]) = none :=
    variantName?_eq_none ("pub enum " ++ decl.type.name ++ " ").toList
      (by simp : _ = _ ++ ['\x7b']) (by decide)
  have hdocs := namesOn_docs variantName? (fun _ => rfl) decl.doc
  rw [enumType, namesOn_append, namesOn_append, namesOn_append, hdocs, hvariants, List.nil_append,
    namesOn_cons_of_none rfl rfl, namesOn_cons_of_none rfl hheader, namesOn_cons_of_none rfl rfl,
    namesOn_cons_of_none rfl rfl]
  exact List.append_nil _

/-! ### Identifiers -/

theorem toIdentifier_cases (name : String) :
    (Name.toIdentifier name).toList = "r#".toList ++ name.toList ∨
      Name.toIdentifier name = name := by
  rw [Name.toIdentifier]
  split
  · exact Or.inl String.toList_append
  · exact Or.inr rfl

/-- The mark is all that an identifier adds to a field's name. -/
theorem unescape_toIdentifier {name : String} (h : Name.isFieldName name = true) :
    unescape (Name.toIdentifier name) = name := by
  have hmark : '#' ∉ name.toList :=
    Name.not_mem_of_isFieldName h (by decide) (by decide) (by decide)
  rcases toIdentifier_cases name with heq | heq
  · rw [unescape, dropStart?_eq_some_iff.2 heq]
    exact String.ofList_toList
  · have hstart : dropStart? "r#".toList name.toList = none := by
      refine Option.eq_none_iff_forall_ne_some.2 fun rest hrest => hmark ?_
      rw [dropStart?_eq_some_iff.1 hrest]
      simp
    rw [heq, unescape, hstart]
    rfl

theorem map_unescape_toIdentifier {names : List String}
    (h : ∀ name ∈ names, Name.isFieldName name = true) :
    (names.map Name.toIdentifier).map unescape = names := by
  rw [List.map_map]
  exact (List.map_congr_left fun name hname => unescape_toIdentifier (h name hname)).trans
    (List.map_id _)

theorem not_mem_toIdentifier {name : String} (h : Name.isFieldName name = true) {c : Char}
    (hlower : c.isLower = false) (hdigit : c.isDigit = false) (hne : c ≠ '_')
    (hmark : c ∉ "r#".toList) : c ∉ (Name.toIdentifier name).toList := by
  have hname := Name.not_mem_of_isFieldName h hlower hdigit hne
  rcases toIdentifier_cases name with heq | heq
  · rw [heq, List.mem_append, not_or]
    exact ⟨hmark, hname⟩
  · rwa [heq]

/-- Setters are called like fields that are no reserved words. -/
theorem isFieldName_setterName {name : String} (h : Name.isFieldName name = true) :
    Name.isFieldName (Schema.setterName name) = true ∧
      Name.toIdentifier (Schema.setterName name) = Schema.setterName name := by
  have hstart : (Schema.setterName name).toList = "put_".toList ++ name.toList :=
    String.toList_append
  have hword : ∀ word ∈ Name.placeWords ++ Name.reservedWords, Schema.setterName name ≠ word := by
    intro word hmem heq
    have hstarts : ∀ word ∈ Name.placeWords ++ Name.reservedWords,
        ¬ "put_".toList <+: word.toList := by decide
    exact hstarts word hmem (heq ▸ hstart ▸ List.prefix_append _ _)
  obtain ⟨c, cs, hname, hfirst, hrest⟩ := Name.chars_of_isFieldName h
  constructor
  · have hplace : Schema.setterName name ∉ Name.placeWords :=
      fun hmem => hword _ (List.mem_append_left _ hmem) rfl
    rw [Name.isFieldName, Bool.and_eq_true, Name.hasShape_iff, hstart, hname]
    refine ⟨⟨'p', ['u', 't', '_'] ++ c :: cs, rfl, by decide, ?_⟩, by simpa using hplace⟩
    refine List.forall_mem_append.2 ⟨by simp, List.forall_mem_cons.2 ⟨by simp [hfirst], ?_⟩⟩
    exact fun d hd => by simpa [or_assoc] using hrest d hd
  · have hreserved : Schema.setterName name ∉ Name.reservedWords :=
      fun hmem => hword _ (List.mem_append_right _ hmem) rfl
    rw [Name.toIdentifier, if_neg (by simpa using hreserved)]

section

variable {field : FieldDecl} (h : Name.isFieldName field.name = true)

include h

theorem slotIdentifiers_slot :
    namesOn slotIdentifier? (slot field) = [Name.toIdentifier field.name] := by
  have hslot : slotIdentifier? (.code [.code ("pub " ++ Name.toIdentifier field.name ++ ": " ++
      slotType field.type ++ ",")]) = some (Name.toIdentifier field.name) :=
    declaredName?_eq_some _ (' ' :: (slotType field.type).toList ++ [',']) (by simp)
      (not_mem_toIdentifier h (by decide) (by decide) (by decide) (by decide))
  have hattribute : ∃ l, (slotAttribute field).line? = some l ∧ slotIdentifier? l = none := by
    rw [slotAttribute]
    split <;> exact ⟨_, rfl, rfl⟩
  obtain ⟨l, hl, hattribute⟩ := hattribute
  have hdocs := namesOn_docs slotIdentifier? (fun _ => rfl) field.doc
  rw [slot, namesOn_append, hdocs, List.nil_append, namesOn_cons_of_none hl hattribute,
    namesOn_cons_of_some rfl hslot]
  rfl

theorem methodIdentifiers_reader {doc type : String} {body : List Piece}
    (hbody : methodIdentifier? (.code body) = none) :
    namesOn methodIdentifier? (reader doc (Name.toIdentifier field.name) type body) =
      [Name.toIdentifier field.name] := by
  have hmethod : methodIdentifier? (.code [.code ("pub fn " ++ Name.toIdentifier field.name ++
      "(&self) -> " ++ type ++ " \x7b")]) = some (Name.toIdentifier field.name) :=
    declaredName?_eq_some _ ("&self) -> ".toList ++ type.toList ++ " \x7b".toList) (by simp)
      (not_mem_toIdentifier h (by decide) (by decide) (by decide) (by decide))
  rw [reader, namesOn_cons_of_none rfl rfl, namesOn_cons_of_some rfl hmethod,
    namesOn_cons_of_none rfl hbody, namesOn_cons_of_none rfl rfl]
  rfl

end

/-- The methods of a field: one that reads it, and the setter of a map. -/
def methodsOf (field : FieldDecl) : List String :=
  match field.type with
  | .plain (.map _ _) => [field.name, Schema.setterName field.name]
  | _ => [field.name]

theorem mem_methodsOf_iff {field : FieldDecl} {name : String} :
    name ∈ methodsOf field ↔ name = field.name ∨
      (∃ key value, field.type = .plain (.map key value)) ∧ name = Schema.setterName field.name := by
  rw [methodsOf]
  split
  · rename_i key value htype
    simp [htype]
  · rename_i hother
    rw [List.mem_singleton]
    exact ⟨Or.inl, fun h => h.resolve_right fun ⟨⟨key, value, htype⟩, _⟩ => hother key value htype⟩

theorem isFieldName_of_mem_methodsOf {field : FieldDecl} (h : Name.isFieldName field.name = true)
    {name : String} (hname : name ∈ methodsOf field) : Name.isFieldName name = true := by
  rcases mem_methodsOf_iff.1 hname with rfl | ⟨-, rfl⟩
  · exact h
  · exact (isFieldName_setterName h).1

theorem methodIdentifier?_eq_none {text : String} (h : text.toList.head? ≠ some 'p') :
    methodIdentifier? (.code [.code text]) = none :=
  declaredName?_eq_none rfl h

theorem methodIdentifier?_setter {name : String} (h : Name.isFieldName name = true)
    (key value : Scalar) :
    methodIdentifier? (.code [.code ("pub fn put_" ++ name ++ "(&mut self, values: &" ++
      mapOf key value ++ ") \x7b")]) = some (Name.toIdentifier (Schema.setterName name)) := by
  obtain ⟨hsetter, hplain⟩ := isFieldName_setterName h
  have hstop := not_mem_toIdentifier hsetter (c := '(') (by decide) (by decide) (by decide)
    (by decide)
  refine declaredName?_eq_some _
    ("&mut self, values: &".toList ++ (mapOf key value).toList ++ ") \x7b".toList) ?_ hstop
  rw [hplain]
  simp [Schema.setterName]

/-- A line that goes on about `self`, perhaps by reference. -/
theorem methodIdentifier?_self (text : String) :
    methodIdentifier? (.code [.code ("self." ++ text)]) = none ∧
      methodIdentifier? (.code [.code ("&self." ++ text)]) = none :=
  ⟨methodIdentifier?_eq_none (by simp), methodIdentifier?_eq_none (by simp)⟩

theorem methodIdentifiers_methods {field : FieldDecl} (h : Name.isFieldName field.name = true) :
    namesOn methodIdentifier? (methods field) = (methodsOf field).map Name.toIdentifier := by
  obtain ⟨name, type, doc⟩ := field
  have hself := fun text => (methodIdentifier?_self (Name.toIdentifier name ++ text)).1
  have href := (methodIdentifier?_self (Name.toIdentifier name)).2
  simp only [← String.append_assoc] at hself
  cases type with
  | plain kind =>
    cases kind with
    | leaf type =>
      cases type with
      | scalar s =>
        cases s with
        | string => exact methodIdentifiers_reader h rfl
        | bool => exact methodIdentifiers_reader h (hself _)
        | int32 => exact methodIdentifiers_reader h (hself _)
      | enum e => exact methodIdentifiers_reader h (hself _)
    | list type => exact methodIdentifiers_reader h href
    | map key value =>
      have hentry : methodIdentifier? (.code [.code ("self." ++ Name.toIdentifier name ++
          ".entry(" ++ copyOf "key" key ++ ").or_insert_with(|| " ++ copyOf "value" value ++
          ");")]) = none :=
        methodIdentifier?_eq_none (by simp)
      rw [methods]
      dsimp only
      rw [namesOn_append, methodIdentifiers_reader h href, namesOn_cons_of_none rfl rfl,
        namesOn_cons_of_none rfl rfl, namesOn_cons_of_some rfl (methodIdentifier?_setter h key value),
        namesOn_cons_of_none rfl rfl, namesOn_cons_of_none rfl hentry,
        namesOn_cons_of_none rfl rfl, namesOn_cons_of_none rfl rfl]
      rfl
  | message m => exact methodIdentifiers_reader h (hself _)
  | messageList m => exact methodIdentifiers_reader h href

theorem slotIdentifiers_record {decl : MessageDecl} (hname : Name.isTypeName decl.name = true)
    (h : Schema.WellNamed decl) :
    namesOn slotIdentifier? (record decl) =
      (decl.fields.map FieldDecl.name).map Name.toIdentifier := by
  have hslots : (decl.fields.flatMap fun field => namesOn slotIdentifier? (slot field)) =
      (decl.fields.map FieldDecl.name).map Name.toIdentifier := by
    rw [List.map_map, List.map_eq_flatMap]
    exact List.flatMap_congr fun field hfield => slotIdentifiers_slot (h.valid field hfield)
  have hdocs := namesOn_docs slotIdentifier? (fun _ => rfl) decl.doc
  have hheader : slotIdentifier? (.code [.code ("pub struct " ++ decl.name ++ " \x7b")]) = none := by
    have hstop : ':' ∉ decl.name.toList :=
      (FieldType.word_of_isTypeName hname).not_mem (by decide)
    exact declaredName?_eq_none_of_not_mem (by simpa using hstop)
  rw [record, namesOn_append, namesOn_append, namesOn_append, hdocs, namesOn_flatMap, hslots,
    List.nil_append, namesOn_cons_of_none rfl rfl, namesOn_cons_of_none rfl rfl,
    namesOn_cons_of_none rfl hheader, namesOn_cons_of_none rfl rfl]
  exact List.append_nil _

theorem methodIdentifiers_recordMethods {decl : MessageDecl} (h : Schema.WellNamed decl) :
    namesOn methodIdentifier? (recordMethods decl) =
      (decl.fields.flatMap methodsOf).map Name.toIdentifier := by
  have hheader : methodIdentifier? (.code [.code ("impl " ++ decl.name ++ " \x7b")]) = none :=
    methodIdentifier?_eq_none (by simp)
  rw [recordMethods, namesOn_append, namesOn_append, namesOn_spaced rfl, List.flatMap_map,
    namesOn_cons_of_none rfl hheader, namesOn_cons_of_none rfl rfl, List.map_flatMap]
  refine (List.append_nil _).trans ?_
  exact List.flatMap_congr fun field hfield => methodIdentifiers_methods (h.valid field hfield)

theorem slotNames_record {decl : MessageDecl} (hname : Name.isTypeName decl.name = true)
    (h : Schema.WellNamed decl) :
    namesOn slotName? (record decl) = decl.fields.map FieldDecl.name := by
  have hnames : namesOn slotName? (record decl) =
      (namesOn slotIdentifier? (record decl)).map unescape := namesOn_map unescape _
  rw [hnames, slotIdentifiers_record hname h, map_unescape_toIdentifier]
  exact List.forall_mem_map.2 h.valid

theorem isFieldName_of_mem_flatMap {decl : MessageDecl} (h : Schema.WellNamed decl) :
    ∀ name ∈ decl.fields.flatMap methodsOf, Name.isFieldName name = true := by
  intro name hname
  obtain ⟨field, hfield, hname⟩ := List.mem_flatMap.1 hname
  exact isFieldName_of_mem_methodsOf (h.valid field hfield) hname

theorem methodNames_recordMethods {decl : MessageDecl} (h : Schema.WellNamed decl) :
    namesOn methodName? (recordMethods decl) =
      decl.fields.flatMap methodsOf := by
  have hnames : namesOn methodName? (recordMethods decl) =
      (namesOn methodIdentifier? (recordMethods decl)).map unescape := namesOn_map unescape _
  rw [hnames, methodIdentifiers_recordMethods h,
    map_unescape_toIdentifier (isFieldName_of_mem_flatMap h)]

theorem setterName_inj {name other : String} :
    Schema.setterName name = Schema.setterName other ↔ name = other := by
  simp [Schema.setterName, ← String.toList_inj]

/-- The methods of a message are distinct: setters are told apart from the fields
and from each other. -/
theorem nodup_methodsOf {decl : MessageDecl} (h : Schema.WellNamed decl) :
    (decl.fields.flatMap methodsOf).Nodup := by
  rw [List.nodup_flatMap]
  constructor
  · intro field hfield
    rw [methodsOf]
    split
    · rename_i key value htype
      have hne := h.setters field hfield key value htype field hfield
      simp [hne]
    · exact List.nodup_singleton _
  · have hnames := List.pairwise_map.1 h.distinct
    refine hnames.imp_of_mem fun {field other} hfield hother hne name hname hname' => ?_
    rcases mem_methodsOf_iff.1 hname with rfl | ⟨⟨key, value, htype⟩, rfl⟩
    · rcases mem_methodsOf_iff.1 hname' with heq | ⟨⟨key, value, htype⟩, heq⟩
      · exact hne heq
      · exact h.setters other hother key value htype field hfield heq
    · rcases mem_methodsOf_iff.1 hname' with heq | ⟨-, heq⟩
      · exact h.setters field hfield key value htype other hother heq.symm
      · exact hne (setterName_inj.1 heq)

/-! ## Accepted schemas -/

/-- What the code of a schema declares, and that it declares nothing twice. -/
structure DeclaresDistinct (schema : Schema) (options : Options) : Prop where
  types : typeNames (moduleCode schema options) =
    schema.enums.map (fun decl => decl.type.name) ++ schema.messages.map MessageDecl.name
  types_nodup : (typeNames (moduleCode schema options)).Nodup
  variants : ∀ decl ∈ schema.enums, namesOn variantName? (enumType decl) =
    decl.type.names.map Name.toVariant
  variants_nodup : ∀ decl ∈ schema.enums, (namesOn variantName? (enumType decl)).Nodup
  slots : ∀ decl ∈ schema.messages, namesOn slotName? (record decl) =
    decl.fields.map FieldDecl.name
  slots_nodup : ∀ decl ∈ schema.messages, (namesOn slotName? (record decl)).Nodup
  methods : ∀ decl ∈ schema.messages, namesOn methodName? (recordMethods decl) =
    decl.fields.flatMap methodsOf
  methods_nodup : ∀ decl ∈ schema.messages, (namesOn methodName? (recordMethods decl)).Nodup

theorem typeNames_of_resolvesTo {raw : RawSchema} {schema : Schema} (h : raw.ResolvesTo schema) :
    raw.typeNames = schema.enums.map (fun decl => decl.type.name) ++
      schema.messages.map MessageDecl.name := by
  have henums := map_eq_map_of_forall₂ (fun _ _ hdecl => hdecl.type.name.symm) h.enums
  have hmessages := map_eq_map_of_forall₂ (fun _ _ hdecl => hdecl.name.symm) h.messages
  rw [RawSchema.typeNames, henums, hmessages]

theorem isTypeName_of_resolve {raw : RawSchema} {schema : Schema}
    (h : Schema.resolve raw = .ok schema) :
    (∀ decl ∈ schema.enums, Name.isTypeName decl.type.name = true) ∧
      ∀ decl ∈ schema.messages, Name.isTypeName decl.name = true := by
  obtain ⟨hwf, hres⟩ := Schema.resolve_eq_ok_iff.1 h
  have hvalid := hwf.valid
  rw [typeNames_of_resolvesTo hres, List.forall_mem_append, List.forall_mem_map,
    List.forall_mem_map] at hvalid
  exact hvalid

theorem values_of_resolve {raw : RawSchema} {schema : Schema}
    (h : Schema.resolve raw = .ok schema) {decl : EnumDecl} (hdecl : decl ∈ schema.enums) :
    (∀ value ∈ decl.type.names, Name.isEnumValueName value = true) ∧
      (decl.type.names.map Name.toVariant).Nodup := by
  obtain ⟨hwf, hres⟩ := Schema.resolve_eq_ok_iff.1 h
  obtain ⟨source, hsource, hdeclRes⟩ := exists_of_mem_right hres.enums hdecl
  rw [hdeclRes.type.values]
  exact ⟨(hwf.enums source hsource).valid, (hwf.enums source hsource).distinct⟩

theorem declaresDistinct_of_resolve {raw : RawSchema} {schema : Schema}
    (h : Schema.resolve raw = .ok schema) (options : Options) : DeclaresDistinct schema options := by
  obtain ⟨hwf, hres⟩ := Schema.resolve_eq_ok_iff.1 h
  obtain ⟨henumNames, hmessageNames⟩ := isTypeName_of_resolve h
  have hwell := fun decl (hdecl : decl ∈ schema.messages) => Schema.wellNamed_of_resolve h hdecl
  have htypes := typeNames_moduleCode options henumNames hmessageNames
  have hslots := fun decl hdecl => slotNames_record (hmessageNames decl hdecl) (hwell decl hdecl)
  have hmethods := fun decl hdecl => methodNames_recordMethods (hwell decl hdecl)
  refine ⟨htypes, ?_, fun decl _ => variantNames_enumType decl, fun decl hdecl => ?_, hslots,
    fun decl hdecl => ?_, hmethods, fun decl hdecl => ?_⟩
  · rw [htypes, ← typeNames_of_resolvesTo hres]
    exact hwf.distinct
  · rw [variantNames_enumType]
    exact (values_of_resolve h hdecl).2
  · rw [hslots decl hdecl]
    exact (hwell decl hdecl).distinct
  · rw [hmethods decl hdecl]
    exact nodup_methodsOf (hwell decl hdecl)

/-- Resolution accepts exactly the well-formed schemas, keeps their declarations,
and what it accepts becomes code that declares nothing twice. -/
theorem resolve_accepts_wellFormed (raw : RawSchema) :
    ((∃ schema, Schema.resolve raw = .ok schema) ↔ raw.WellFormed) ∧
    (∀ schema, Schema.resolve raw = .ok schema ↔ raw.WellFormed ∧ raw.ResolvesTo schema) ∧
    ∀ schema, Schema.resolve raw = .ok schema → ∀ options, DeclaresDistinct schema options :=
  ⟨Schema.exists_resolve_iff, fun _ => Schema.resolve_eq_ok_iff,
    fun _ h options => declaresDistinct_of_resolve h options⟩

/-- A declaration with types of every form, and a field that is called like the
setter of a field that is no map. -/
def variedDeclaration : RawSchema where
  enums := [{ name := "Mode", doc := " How fast. ", values := ["FAST_HTTP", "SLOW"] }]
  messages := [
    { name := "Root", fields := [⟨"mode", "Mode", ""⟩, ⟨"put_mode", " bool ", ""⟩,
      ⟨"type", "map <string ,int32>", " By name.\n"⟩, ⟨"parts", "repeated  Part", ""⟩] },
    { name := "Part", fields := [⟨"modes", "repeated Mode", ""⟩] }]

def modeType : EnumType := { name := "Mode", first := "FAST_HTTP", rest := ["SLOW"] }

def variedSchema : Schema where
  enums := [⟨modeType, "How fast."⟩]
  messages := [
    ⟨"Root", "", [⟨"mode", .plain (.leaf (.enum modeType)), ""⟩,
      ⟨"put_mode", .plain (.leaf (.scalar .bool)), ""⟩,
      ⟨"type", .plain (.map .string .int32), "By name."⟩, ⟨"parts", .messageList "Part", ""⟩]⟩,
    ⟨"Part", "", [⟨"modes", .plain (.list (.enum modeType)), ""⟩]⟩]

theorem resolve_variedDeclaration :
    Schema.resolve variedDeclaration = .ok variedSchema ∧ variedDeclaration.WellFormed ∧
      variedDeclaration.ResolvesTo variedSchema ∧ DeclaresDistinct variedSchema {} := by
  have hschema : Schema.resolve variedDeclaration = .ok variedSchema := rfl
  obtain ⟨-, hexact, hcode⟩ := resolve_accepts_wellFormed variedDeclaration
  obtain ⟨hwf, hres⟩ := (hexact variedSchema).1 hschema
  exact ⟨hschema, hwf, hres, hcode variedSchema hschema {}⟩

end LayeredConfig.Code
