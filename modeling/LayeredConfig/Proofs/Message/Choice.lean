import LayeredConfig.Environment
import LayeredConfig.Message.Clean
import LayeredConfig.Proofs.Message.Value
import LayeredConfig.Proofs.Text.Split
import LayeredConfig.Proofs.Text.Trim

/-!
# The names of an enum

The name of a value is read in several places: by the conversion from names, by the test
that a document fits, by the decoder, and from the environment.  All of them take the same
texts, and take each of these for the same value, the one that has it as its name
(`accepts_or_refuses`).  Lists of names are read alike from documents and from the
environment, where commas stand between them (`readsLists`).
-/

namespace LayeredConfig.EnumType

variable {e : EnumType} {text : String}

theorem valueName_injective (e : EnumType) : Function.Injective e.valueName :=
  List.nodup_iff_injective_get.1 e.distinct

theorem valueName_mem (v : e.Val) : e.valueName v ∈ e.names := List.get_mem e.names v

theorem exists_valueName_eq (h : text ∈ e.names) : ∃ v, e.valueName v = text := List.get_of_mem h

theorem ofName?_eq_none (h : text ∉ e.names) : e.ofName? text = none :=
  List.finIdxOf?_eq_none_iff.2 h

/-- All readers take a text for a value, and whatever writes the value writes the text. -/
structure Accepts (e : EnumType) (text : String) (v : e.Val) : Prop where
  named : e.ofName? text = some v
  fits : (ValueType.enum e).fits (.string text) = true
  decoded : (ValueType.enum e).decode (.string text) = .ok v
  /-- A field is read from a document, -/
  held : Kind.decode (.leaf (.enum e)) (.string text) = .ok (some v)
  /-- and from every environment in which its variable has the text. -/
  denoted : ∀ (env : Environment) (name : String), env.texts.find? name = some text →
    env.value? name (.enum e) = some v
  listed : text ∈ e.names
  position : e.names.idxOf text = v
  shown : e.valueName v = text
  written : (ValueType.enum e).toJson v = .string text

/-- No reader takes a text for a value. -/
structure Refuses (e : EnumType) (text : String) : Prop where
  named : e.ofName? text = none
  fits : (ValueType.enum e).fits (.string text) = false
  decoded : (ValueType.enum e).decode (.string text) = .error (.unknownVariant text e.names)
  held : Kind.decode (.leaf (.enum e)) (.string text) = .error (.unknownVariant text e.names)
  denoted : ∀ (env : Environment) (name : String), env.texts.find? name = some text →
    env.value? name (.enum e) = none
  listed : text ∉ e.names

theorem decode_leaf (e : EnumType) (text : String) :
    Kind.decode (.leaf (.enum e)) (.string text) =
      ((ValueType.enum e).decode (.string text)).map some := by
  rw [Kind.decode]
  · cases (ValueType.enum e).decode (.string text) <;> rfl
  · exact nofun

theorem value?_enum {env : Environment} {name : String} (hfind : env.texts.find? name = some text)
    (hempty : "" ∉ e.names) : env.value? name (.enum e) = e.ofName? text := by
  rw [Environment.value?, Environment.text?, hfind]
  by_cases hne : text = ""
  · subst hne
    exact (ofName?_eq_none hempty).symm
  · rw [Option.filter_some, if_pos (by simp [hne])]
    rfl

theorem accepts_valueName (hempty : "" ∉ e.names) (v : e.Val) : e.Accepts (e.valueName v) v := by
  have hname := e.ofName?_valueName v
  have hdecode : (ValueType.enum e).decode (.string (e.valueName v)) = .ok v :=
    ValueType.decode_of_ofJson? hname
  refine ⟨hname, ?_, hdecode, ?_, fun env name hfind => ?_, valueName_mem v, ?_, rfl, rfl⟩
  · rw [ValueType.fits, ValueType.ofJson?, hname]
    rfl
  · rw [decode_leaf, hdecode]
    rfl
  · rw [value?_enum hfind hempty, hname]
  · exact List.get_idxOf e.distinct v

theorem refuses_of_not_mem (hempty : "" ∉ e.names) (h : text ∉ e.names) : e.Refuses text := by
  have hname := ofName?_eq_none h
  have hdecode : (ValueType.enum e).decode (.string text) =
      .error (.unknownVariant text e.names) := by
    rw [ValueType.decode, decode, decodeName, hname]
  refine ⟨hname, ?_, hdecode, ?_, fun env name hfind => ?_, h⟩
  · rw [ValueType.fits, ValueType.ofJson?, hname]
    rfl
  · rw [decode_leaf, hdecode]
    rfl
  · rw [value?_enum hfind hempty, hname]

/-- The readers of an enum accept a text together or refuse it together. -/
theorem accepts_or_refuses (hempty : "" ∉ e.names) (text : String) :
    (∃ v, e.Accepts text v) ∨ e.Refuses text := by
  by_cases h : text ∈ e.names
  · obtain ⟨v, rfl⟩ := exists_valueName_eq h
    exact Or.inl ⟨v, accepts_valueName hempty v⟩
  · exact Or.inr (refuses_of_not_mem hempty h)

/-! ## Lists -/

def listText (e : EnumType) (values : List e.Val) : String :=
  ",".intercalate (values.map e.valueName)

section

variable (hcomma : ∀ name ∈ e.names, ',' ∉ name.toList) {values : List e.Val} (hne : values ≠ [])

include hcomma hne

theorem splitString_listText :
    Text.splitString ',' (e.listText values) = values.map e.valueName :=
  Text.splitString_intercalate (mt List.map_eq_nil_iff.1 hne)
    (List.forall_mem_map.2 fun v _ => hcomma _ (valueName_mem v))

theorem listText_ne_empty (hempty : "" ∉ e.names) : e.listText values ≠ "" := by
  intro heq
  have hsplit : [""] = values.map e.valueName := by
    rw [← splitString_listText hcomma hne, heq]
    rfl
  have hmem : "" ∈ values.map e.valueName := hsplit ▸ List.mem_cons_self
  obtain ⟨v, -, hv⟩ := List.mem_map.1 hmem
  exact hempty (hv ▸ valueName_mem v)

variable (htight : ∀ name ∈ e.names, Text.Tight name.toList)

include htight

theorem listOfText_listText : (ValueType.enum e).listOfText (e.listText values) = values := by
  have hread : (fun element => (ValueType.enum e).ofText? (Text.trimString element)) ∘
      e.valueName = some := by
    funext v
    have htrim := (Text.trim_eq_iff (htight _ (valueName_mem v))).2 (Text.Padded.refl _)
    rw [Function.comp_apply, Text.trimString, htrim, String.ofList_toList]
    exact e.ofName?_valueName v
  rw [ValueType.listOfText, splitString_listText hcomma hne, List.filterMap_map]
  · exact (congrArg (fun f => values.filterMap f) hread).trans List.filterMap_some
  · exact nofun

/-- A list of values is read from its names, in documents as in the environment. -/
theorem readsLists (hempty : "" ∉ e.names) :
    Kind.decode (.list (.enum e)) (.array (values.map (ValueType.enum e).toJson)) = .ok values ∧
      ∀ (env : Environment) (name : String), env.texts.find? name = some (e.listText values) →
        env.list? name (.enum e) = some values := by
  constructor
  · have hread := mapM_eq_ok_map fun v (_ : v ∈ values) => (ValueType.enum e).decode_toJson v
    rwa [List.map_id'] at hread
  · intro env name hfind
    have htext := listText_ne_empty hcomma hne hempty
    rw [Environment.list?, Environment.text?, hfind, Option.filter_some,
      if_pos (by simp [htext]), Option.map_some, listOfText_listText hcomma hne htight]
    simp [hne]

end

end LayeredConfig.EnumType
