import LayeredConfig.Environment
import LayeredConfig.Proofs.Code.Legible
import LayeredConfig.Proofs.Message.Value

/-!
# Lists in the environment

A list of strings is what stands between the commas of its variable: it is read back from
its joined elements, and joining what was read gives the text of the variable.  Lists of
other types are read element by element (`listOfText_append`).  So a list is read from the
texts of its values, however much white space is around them and whatever texts without a
value stand between them (`Spells`).
-/

namespace LayeredConfig

open Text

namespace ValueType

def toText : (t : ValueType) → t.Val → String
  | scalar s, v => s.toText v
  | enum e, v => e.valueName v

theorem ofText?_toText (t : ValueType) (v : t.Val) : t.ofText? (t.toText v) = some v := by
  cases t with
  | scalar s => exact s.ofText?_toText v
  | enum e => exact e.ofName?_valueName v

/-- A type whose values can stand between commas with white space around them. -/
structure Listable (t : ValueType) : Prop where
  comma : ∀ v, ',' ∉ (t.toText v).toList
  tight : ∀ v, Tight (t.toText v).toList
  /-- Nothing between two commas is no value. -/
  empty : t.ofText? "" = none

/-- The elements of a list are the texts of its values, in order and with white space around
them; in between there may be texts that denote no value. -/
inductive Spells (t : ValueType) : List String → List t.Val → Prop
  | nil : Spells t [] []
  | value {element : String} {v : t.Val} {elements : List String} {values : List t.Val}
    (helement : Padded element.toList (t.toText v).toList) (hrest : Spells t elements values) :
    Spells t (element :: elements) (v :: values)
  | none {element : String} {elements : List String} {values : List t.Val}
    (hcomma : ',' ∉ element.toList) (helement : t.ofText? (trimString element) = .none)
    (hrest : Spells t elements values) : Spells t (element :: elements) values

/-! ## Types of elements -/

theorem listable_bool : (scalar .bool).Listable := by
  have hword : ∀ v : Bool, Code.isWord (Scalar.bool.toText v) = true := by decide
  exact ⟨fun v => Code.not_mem_of_isWord (hword v) (by decide) (by decide),
    fun v => Code.tight_of_isWord (hword v), by decide⟩

theorem listable_int32 : (scalar .int32).Listable := by
  have hchar : ∀ (n : Int32), ∀ c ∈ (writeInt32 n).toList, c.isDigit ∨ c = '-' := by
    intro n c hc
    rw [toList_writeInt32] at hc
    split at hc
    · exact Or.inl (isDigit_of_mem_toDigits hc)
    · exact (List.mem_cons.1 hc).symm.imp_left isDigit_of_mem_toDigits
  refine ⟨fun n hc => ?_, fun n => tight_of_forall_mem fun c hc => ?_, by decide⟩
  · exact absurd (hchar n _ hc) (by decide)
  · rcases hchar n c hc with hdigit | rfl
    · exact not_isWhiteSpace_of_isAlphanum (by simp [Char.isAlphanum, hdigit])
    · decide

theorem listable_enum {e : EnumType}
    (hnames : ∀ name ∈ e.names, Name.isEnumValueName name = true) : (enum e).Listable := by
  have hword : ∀ v, Code.isWord (e.valueName v) = true := fun v =>
    Code.isWord_of_isEnumValueName (hnames _ (List.get_mem e.names v))
  refine ⟨fun v => Code.not_mem_of_isWord (hword v) (by decide) (by decide),
    fun v => Code.tight_of_isWord (hword v), ?_⟩
  exact List.finIdxOf?_eq_none_iff.2 fun hempty => nomatch hnames "" hempty

theorem listable_of_resolve {raw : RawSchema} {schema : Schema}
    (h : Schema.resolve raw = .ok schema) {t : ValueType} (ht : t.DeclaredBy schema)
    (hstring : t ≠ scalar .string) : t.Listable := by
  cases t with
  | scalar s =>
    cases s with
    | string => exact absurd rfl hstring
    | bool => exact listable_bool
    | int32 => exact listable_int32
  | enum e =>
    obtain ⟨decl, hdecl, rfl⟩ := ht
    exact listable_enum (Code.values_of_resolve h hdecl).1

/-! ## Texts of lists -/

section

variable {t : ValueType} (hstring : t ≠ scalar .string)

include hstring

theorem listOfText_eq (text : String) :
    t.listOfText text = (splitString ',' text).filterMap fun element =>
      t.ofText? (trimString element) := by
  rw [listOfText]
  exact hstring

/-- The values of two texts with a comma between them are those of the one and then those of
the other. -/
theorem listOfText_append (text more : String) :
    t.listOfText (text ++ "," ++ more) = t.listOfText text ++ t.listOfText more := by
  have hcut := splitString_append_sep ',' text more
  rw [listOfText_eq hstring, listOfText_eq hstring, listOfText_eq hstring, ← List.filterMap_append]
  exact congrArg _ hcut

variable (ht : t.Listable)

include ht

theorem listOfText_empty : t.listOfText "" = [] := by
  have hsplit : splitString ',' "" = [""] := by decide
  have htrim : trimString "" = "" := by decide
  rw [listOfText_eq hstring, hsplit, List.filterMap_cons, htrim, ht.empty]
  rfl

omit hstring in
theorem Spells.comma {elements : List String} {values : List t.Val} (h : t.Spells elements values) :
    ∀ element ∈ elements, ',' ∉ element.toList := by
  induction h with
  | nil => exact fun _ h => absurd h List.not_mem_nil
  | none hcomma _ _ ih => exact List.forall_mem_cons.2 ⟨hcomma, ih⟩
  | @value element v _ _ helement _ ih =>
    refine List.forall_mem_cons.2 ⟨fun hmem => ?_, ih⟩
    obtain ⟨before, after, hbefore, hafter, heq⟩ := helement
    rw [heq, List.mem_append, List.mem_append] at hmem
    rcases hmem with (hmem | hmem) | hmem
    · exact hbefore.not_mem (by decide) hmem
    · exact ht.comma v hmem
    · exact hafter.not_mem (by decide) hmem

omit hstring in
theorem Spells.filterMap {elements : List String} {values : List t.Val}
    (h : t.Spells elements values) :
    (elements.filterMap fun element => t.ofText? (trimString element)) = values := by
  induction h with
  | nil => rfl
  | none _ helement _ ih => rw [List.filterMap_cons, helement, ih]
  | @value element v _ _ helement _ ih =>
    have htrim : trimString element = t.toText v := by
      rw [trimString, (trim_eq_iff (ht.tight v)).2 helement, String.ofList_toList]
    rw [List.filterMap_cons, htrim, t.ofText?_toText v, ih]

theorem Spells.listOfText {elements : List String} {values : List t.Val}
    (h : t.Spells elements values) (hne : elements ≠ []) :
    t.listOfText (",".intercalate elements) = values := by
  have hcut := splitString_intercalate hne (h.comma ht)
  rw [listOfText_eq hstring, ← h.filterMap ht]
  exact congrArg _ hcut

end

end ValueType

namespace Environment

open ValueType

variable {env : Environment} {name text : String} (hfind : env.texts.find? name = some text)

include hfind

theorem text?_eq : env.text? name = if text = "" then none else some text := by
  rw [text?, hfind, Option.filter_some]
  by_cases hempty : text = "" <;> simp [hempty]

theorem list?_string :
    env.list? name (.scalar .string) = if text = "" then none else some (splitString ',' text) := by
  rw [list?, text?_eq hfind]
  by_cases hempty : text = ""
  · rw [if_pos hempty, if_pos hempty]
    rfl
  · have hne : splitString ',' text ≠ [] := splitString_ne_nil ',' text
    rw [if_neg hempty, if_neg hempty, Option.map_some, listOfText, Option.filter_some]
    simp [hne]

/-- What is read from a variable is the list of its text, unless this is empty. -/
theorem list?_eq {t : ValueType} (hstring : t ≠ .scalar .string) (ht : t.Listable) :
    env.list? name t = (some (t.listOfText text)).filter fun values => !values.isEmpty := by
  rw [list?, text?_eq hfind]
  by_cases hempty : text = ""
  · rw [if_pos hempty, hempty, listOfText_empty hstring ht]
    rfl
  · rw [if_neg hempty, Option.map_some]

theorem getD_list?_nil {t : ValueType} (hstring : t ≠ .scalar .string) (ht : t.Listable) :
    (env.list? name t).getD [] = t.listOfText text := by
  rw [list?_eq hfind hstring ht]
  cases t.listOfText text <;> rfl

theorem list?_eq_none_iff {t : ValueType} (hstring : t ≠ .scalar .string) (ht : t.Listable) :
    env.list? name t = none ↔ t.listOfText text = [] := by
  rw [list?_eq hfind hstring ht]
  cases t.listOfText text <;> simp

theorem list?_of_listOfText {t : ValueType} (hstring : t ≠ .scalar .string) (ht : t.Listable)
    {values : List t.Val} (h : t.listOfText text = values) (hne : values ≠ []) :
    env.list? name t = some values := by
  rw [list?_eq hfind hstring ht, h]
  simp [hne]

omit hfind

/-- Lists are read from variables without loss and without invention.  A list of strings is
read back from its joined elements, and joins to the text it was read from.  The other lists of
a schema are read element by element: from two texts with a comma between them, the values of
the one and then those of the other; and so every list from elements that spell it. -/
theorem list_variables {raw : RawSchema} {schema : Schema} (h : Schema.resolve raw = .ok schema) :
    (∀ (env : Environment) (name : String) (values : List String), values ≠ [] → values ≠ [""] →
      (∀ value ∈ values, ',' ∉ value.toList) →
      env.texts.find? name = some (",".intercalate values) →
        env.list? name (.scalar .string) = some values) ∧
    (∀ (env : Environment) (name text : String), text ≠ "" → env.texts.find? name = some text →
      ∃ values, env.list? name (.scalar .string) = some values ∧ ",".intercalate values = text) ∧
    ∀ t : ValueType, t.DeclaredBy schema → t ≠ .scalar .string →
      (∀ (env left right : Environment) (name start rest text more : String),
        env.texts.find? name = some (text ++ "," ++ more) →
        left.texts.find? start = some text → right.texts.find? rest = some more →
          (env.list? name t).getD [] =
            (left.list? start t).getD [] ++ (right.list? rest t).getD [] ∧
          (env.list? name t = none ↔
            (left.list? start t).getD [] ++ (right.list? rest t).getD [] = [])) ∧
      ∀ (env : Environment) (name : String) (elements : List String) (values : List t.Val),
        t.Spells elements values → values ≠ [] →
        env.texts.find? name = some (",".intercalate elements) →
          env.list? name t = some values := by
  refine ⟨fun env name values hne hlone hcomma hfind => ?_,
    fun env name text htext hfind => ?_, fun t ht hstring => ?_⟩
  · have hcut : splitString ',' (",".intercalate values) = values :=
      splitString_intercalate hne hcomma
    have htext : ",".intercalate values ≠ "" := by
      intro hempty
      rw [hempty] at hcut
      exact hlone hcut.symm
    rw [list?_string hfind, if_neg htext, hcut]
  · refine ⟨splitString ',' text, ?_, intercalate_splitString ',' text⟩
    rw [list?_string hfind, if_neg htext]
  · have hlistable := listable_of_resolve h ht hstring
    refine ⟨fun env left right name start rest text more hfind hleft hright => ?_,
      fun env name elements values hspells hne hfind => ?_⟩
    · have happend := listOfText_append hstring text more
      rw [getD_list?_nil hfind hstring hlistable, getD_list?_nil hleft hstring hlistable,
        getD_list?_nil hright hstring hlistable, list?_eq_none_iff hfind hstring hlistable, happend]
      exact ⟨rfl, Iff.rfl⟩
    · have helements : elements ≠ [] := by
        rintro rfl
        cases hspells
        exact hne rfl
      have hread := hspells.listOfText hstring hlistable helements
      exact list?_of_listOfText hfind hstring hlistable hread hne

def listEnvironment : Environment :=
  .ofList [("NAMES", "a,, b"), ("COUNTS", "7,x, 8"), ("FIRST", "7,x"), ("LAST", " 8"),
    ("MODES", " SLOW,none,FAST_HTTP\t")]

/-- The lists of these variables.  The last has white space and an element without a value. -/
theorem list_variables_read :
    Schema.resolve Code.variedDeclaration = .ok Code.variedSchema ∧
      listEnvironment.list? "NAMES" (.scalar .string) = some ["a", "", " b"] ∧
      (∃ values, listEnvironment.list? "LAST" (.scalar .string) = some values ∧
        ",".intercalate values = " 8") ∧
      (listEnvironment.list? "COUNTS" (.scalar .int32)).getD [] =
        (listEnvironment.list? "FIRST" (.scalar .int32)).getD [] ++
          (listEnvironment.list? "LAST" (.scalar .int32)).getD [] ∧
      listEnvironment.list? "MODES" (.enum Code.modeType) =
        some [⟨1, by decide⟩, ⟨0, by decide⟩] := by
  have hschema : Schema.resolve Code.variedDeclaration = .ok Code.variedSchema := rfl
  obtain ⟨hjoined, htext, hlists⟩ := list_variables hschema
  have hspells : (ValueType.enum Code.modeType).Spells [" SLOW", "none", "FAST_HTTP\t"]
      [⟨1, by decide⟩, ⟨0, by decide⟩] := by
    refine .value ⟨[' '], [], by decide, by decide, by decide⟩ (.none (by decide) (by decide) ?_)
    exact .value ⟨[], ['\t'], by decide, by decide, by decide⟩ .nil
  refine ⟨hschema, ?_, ?_, ?_, ?_⟩
  · exact hjoined _ _ ["a", "", " b"] (by decide) (by decide) (by decide) (by decide +kernel)
  · exact htext _ _ " 8" (by decide) (by decide +kernel)
  · exact ((hlists (.scalar .int32) trivial nofun).1 listEnvironment _ _ "COUNTS" "FIRST" "LAST"
      "7,x" " 8" (by decide +kernel) (by decide +kernel) (by decide +kernel)).1
  · refine (hlists (.enum Code.modeType) ⟨_, List.mem_cons_self, rfl⟩ nofun).2 _ _ _ _ hspells ?_ ?_
    · exact List.cons_ne_nil _ _
    · decide +kernel

end Environment

end LayeredConfig
