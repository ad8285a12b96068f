import Mathlib.Data.List.Basic
import Mathlib.Tactic.SplitIfs
import Mathlib.Tactic.Convert
import LayeredConfig.Proofs.Text.Trim
import LayeredConfig.Schema.TypeText

/-!
# The grammar of written types

`Denotes` is the grammar of type texts, relative to what the declared names
stand for: a name alone, a name after `repeated`, or two scalar types in
`map<,>`, with white space where the reader passes over it.  Reading a text is
this relation (`ofText?_eq_some_iff`), so a text denotes one type at most.  What
keeps the forms apart is that names are words: no name holds a blank, a comma or
an angle bracket.
-/

namespace LayeredConfig

open Text

namespace Text

structure Word (cs : List Char) : Prop where
  ne_nil : cs ≠ []
  isAlphanum : ∀ c ∈ cs, c.isAlphanum

theorem not_isWhiteSpace_of_isAlphanum {c : Char} (h : c.isAlphanum) : ¬ isWhiteSpace c := by
  -- The test as a statement about ranges, to be compared with the code points of white space.
  have hranges : ((decide (c.val ≥ 'A'.val ∧ c.val ≤ 'Z'.val) ||
      (decide (c.val ≥ 'a'.val) && decide (c.val ≤ 'z'.val))) ||
        (decide (c.val ≥ '0'.val) && decide (c.val ≤ '9'.val))) = true := h
  simp only [Bool.or_eq_true, Bool.and_eq_true, decide_eq_true_eq, UInt32.le_iff_toNat_le,
    ge_iff_le] at hranges
  simp only [isWhiteSpace, Bool.or_eq_true, Bool.and_eq_true, decide_eq_true_eq, beq_iff_eq]
  have hnat : c.toNat = c.val.toNat := rfl
  have hZ : 'Z'.val.toNat = 90 := rfl
  have hz : 'z'.val.toNat = 122 := rfl
  have h9 : '9'.val.toNat = 57 := rfl
  have hA : 'A'.val.toNat = 65 := rfl
  have ha : 'a'.val.toNat = 97 := rfl
  have h0 : '0'.val.toNat = 48 := rfl
  omega

theorem word_of_all {cs : List Char} (hne : cs ≠ []) (h : cs.all Char.isAlphanum = true) :
    Word cs :=
  ⟨hne, List.all_eq_true.1 h⟩

theorem Word.tight {cs : List Char} (h : Word cs) : Tight cs :=
  tight_of_forall_mem fun c hc => not_isWhiteSpace_of_isAlphanum (h.isAlphanum c hc)

theorem Word.not_mem {cs : List Char} (h : Word cs) {c : Char} (hc : c.isAlphanum = false) :
    c ∉ cs :=
  fun hmem => Bool.false_ne_true (hc.symm.trans (h.isAlphanum c hmem))

end Text

namespace FieldType

/-- A name that stands for a type: alone it denotes a single value or message,
after `repeated` a list of them. -/
inductive Element (declares : String → Declared → Prop) :
    String → (single list : FieldType) → Prop
  | scalar (s : Scalar) :
    Element declares s.name (.plain (.leaf (.scalar s))) (.plain (.list (.scalar s)))
  | enum {name : String} {type : EnumType} (h : declares name (.enum type)) :
    Element declares name (.plain (.leaf (.enum type))) (.plain (.list (.enum type)))
  | message {name : String} (h : declares name .message) :
    Element declares name (.message name) (.messageList name)

inductive Denotes (declares : String → Declared → Prop) (text : List Char) : FieldType → Prop
  | single {name : String} {type list : FieldType} (h : Element declares name type list)
    (htext : Padded text name.toList) : Denotes declares text type
  | repeated {name : String} {single type : FieldType} {gap : List Char}
    (h : Element declares name single type) (hgap : Blank gap)
    (htext : Padded text ("repeated ".toList ++ gap ++ name.toList)) : Denotes declares text type
  | map (key value : Scalar) {gap keyText valueText : List Char} (hgap : Blank gap)
    (hkey : Padded keyText key.name.toList) (hvalue : Padded valueText value.name.toList)
    (htext : Padded text ("map".toList ++ gap ++ '<' :: keyText ++ ',' :: valueText ++ ['>'])) :
    Denotes declares text (.plain (.map key value))

variable {names : Names} {declares : String → Declared → Prop}

/-! ## Names of types -/

theorem scalarOfName?_eq_some_iff {name : String} {s : Scalar} :
    Scalar.ofName? name = some s ↔ name = s.name := by
  constructor
  · intro h
    rw [Scalar.ofName?] at h
    split_ifs at h <;> cases h <;> assumption
  · rintro rfl
    cases s <;> rfl

theorem word_scalarName (s : Scalar) : Word s.name.toList := by
  cases s <;> exact word_of_all (by decide) (by decide)

theorem isUpper_head_of_isTypeName {name : String} (h : Name.isTypeName name = true) :
    ∃ c cs, name.toList = c :: cs ∧ c.isUpper ∧ ∀ d ∈ cs, d.isAlphanum := by
  rw [Name.isTypeName, Bool.and_eq_true, Name.hasShape_iff] at h
  exact h.1

theorem word_of_isTypeName {name : String} (h : Name.isTypeName name = true) :
    Word name.toList := by
  obtain ⟨c, cs, hname, hfirst, hrest⟩ := isUpper_head_of_isTypeName h
  rw [hname]
  refine ⟨List.cons_ne_nil _ _, List.forall_mem_cons.2 ⟨?_, hrest⟩⟩
  have halphanum : c.isAlphanum = (c.isUpper || c.isLower || c.isDigit) := rfl
  rw [halphanum, hfirst]
  rfl

theorem scalarOfName?_of_isTypeName {name : String} (h : Name.isTypeName name = true) :
    Scalar.ofName? name = none := by
  refine Option.eq_none_iff_forall_ne_some.2 fun s hs => ?_
  rw [scalarOfName?_eq_some_iff] at hs
  subst hs
  cases s <;> exact absurd h (by decide +kernel)

/-! ## Reading a text -/

section

variable (hdeclared : ∀ name declared, declared? names name = some declared ↔ declares name declared)
  (hvalid : ∀ name declared, declares name declared → Name.isTypeName name = true)

include hvalid in
theorem Element.word {name : String} {single list : FieldType}
    (h : Element declares name single list) : Word name.toList := by
  cases h with
  | scalar s => exact word_scalarName s
  | enum h | message h => exact word_of_isTypeName (hvalid _ _ h)

include hdeclared hvalid in
theorem Element.eq_some {name : String} {single list : FieldType}
    (h : Element declares name single list) :
    single? names name = some single ∧ repeated? names name = some list := by
  rw [single?, repeated?]
  cases h with
  | scalar s =>
    rw [scalarOfName?_eq_some_iff.2 rfl]
    exact ⟨rfl, rfl⟩
  | enum h | message h =>
    rw [scalarOfName?_of_isTypeName (hvalid _ _ h), (hdeclared _ _).2 h]
    exact ⟨rfl, rfl⟩

include hdeclared in
theorem element_of_eq_some {name : String} {single list : FieldType}
    (hsingle : single? names name = some single) (hlist : repeated? names name = some list) :
    Element declares name single list := by
  rw [single?] at hsingle
  rw [repeated?] at hlist
  cases hscalar : Scalar.ofName? name with
  | some s =>
    rw [hscalar] at hsingle hlist
    obtain rfl := scalarOfName?_eq_some_iff.1 hscalar
    obtain rfl := Option.some.inj hsingle
    obtain rfl := Option.some.inj hlist
    exact .scalar s
  | none =>
    rw [hscalar] at hsingle hlist
    obtain ⟨declared, hname, hsingle⟩ := Option.map_eq_some_iff.1 hsingle
    rw [hname] at hlist
    have hdeclares := (hdeclared _ _).1 hname
    cases declared with
    | enum type =>
      obtain rfl := hsingle
      obtain rfl := Option.some.inj hlist
      exact .enum hdeclares
    | message =>
      obtain rfl := hsingle
      obtain rfl := Option.some.inj hlist
      exact .message hdeclares

end

theorem mapParts?_eq_some_iff {text key value : List Char} :
    mapParts? text = some (key, value) ↔ ∃ gap keyText valueText, Blank gap ∧ ',' ∉ keyText ∧
      trim text = "map".toList ++ gap ++ '<' :: keyText ++ ',' :: valueText ++ ['>'] ∧
      trim keyText = key ∧ trim valueText = value := by
  have hangle : ¬ isWhiteSpace '<' := by decide
  rw [mapParts?]
  simp only [Option.bind_eq_bind, Option.bind_eq_some_iff, dropStart?_eq_some_iff,
    dropLast?_eq_some_iff, Prod.exists, splitOnce?_eq_some_iff, Option.some.injEq, Prod.mk.injEq]
  constructor
  · rintro ⟨inner, hinner, closed, hclosed, pair, hpair, keyText, valueText, ⟨hcomma, rfl⟩, hparts⟩
    obtain ⟨gap, hgap, hstart, -⟩ := exists_blank_append_trimStart inner
    refine ⟨gap, keyText, valueText, hgap, hcomma, ?_, hparts⟩
    rw [hinner, hstart, hclosed, hpair]
    simp
  · rintro ⟨gap, keyText, valueText, hgap, hcomma, htext, hparts⟩
    have hstart : trimStart (gap ++ '<' :: (keyText ++ ',' :: valueText ++ ['>'])) =
        '<' :: (keyText ++ ',' :: valueText ++ ['>']) :=
      trimStart_append_of_blank hgap _ (by simpa using hangle)
    refine ⟨gap ++ '<' :: (keyText ++ ',' :: valueText ++ ['>']), ?_, _, ?_, _, rfl, keyText,
      valueText, ⟨hcomma, rfl⟩, hparts⟩
    · rw [htext]
      simp
    · rw [hstart]
      rfl

theorem map?_eq_some_iff {key value : List Char} {type : FieldType} :
    map? key value = some type ↔ ∃ k v : Scalar, key = k.name.toList ∧ value = v.name.toList ∧
      type = .plain (.map k v) := by
  simp only [map?, Option.bind_eq_bind, Option.bind_eq_some_iff, scalarOfName?_eq_some_iff,
    Option.some.injEq, ← String.toList_inj, String.toList_ofList]
  constructor
  · rintro ⟨k, rfl, v, rfl, rfl⟩
    exact ⟨k, v, rfl, rfl, rfl⟩
  · rintro ⟨k, v, rfl, rfl, rfl⟩
    exact ⟨k, rfl, v, rfl, rfl⟩

/-- What the reader does with a text that is no map. -/
def ofPlainText? (names : Names) (text : List Char) : Option FieldType :=
  match dropStart? "repeated ".toList text with
  | some inner => repeated? names (String.ofList (trim inner))
  | none => single? names (String.ofList text)

theorem ofText?_of_mapParts?_eq_none {text : String} (h : mapParts? (trim text.toList) = none) :
    ofText? names text = ofPlainText? names (trim text.toList) := by
  rw [ofText?, h]
  rfl

theorem mapParts?_eq_none {text : List Char} (h : '<' ∉ trim text) : mapParts? text = none := by
  refine Option.eq_none_iff_forall_ne_some.2 fun parts hparts => h ?_
  obtain ⟨gap, keyText, valueText, -, -, htext, -⟩ := mapParts?_eq_some_iff.1 hparts
  rw [htext]
  simp

/-- Without an angle bracket, what is read is the text without the white space around it. -/
theorem ofText?_of_padded {text : String} {core : List Char} (hcore : Tight core)
    (htext : Padded text.toList core) (hangle : '<' ∉ core) :
    ofText? names text = ofPlainText? names core := by
  have htrim := (trim_eq_iff hcore).2 htext
  have hparts : mapParts? (trim text.toList) = none := by
    refine mapParts?_eq_none ?_
    rwa [trim_trim, htrim]
  rw [ofText?_of_mapParts?_eq_none hparts, htrim]

theorem ofText?_single {text name : String} (hname : Word name.toList)
    (htext : Padded text.toList name.toList) : ofText? names text = single? names name := by
  have hstart : dropStart? "repeated ".toList name.toList = none := by
    refine Option.eq_none_iff_forall_ne_some.2 fun inner hinner => ?_
    have hspace : ' ' ∉ name.toList := hname.not_mem (by decide)
    rw [dropStart?_eq_some_iff.1 hinner] at hspace
    simp at hspace
  rw [ofText?_of_padded hname.tight htext (hname.not_mem (by decide)), ofPlainText?, hstart]
  dsimp only
  rw [String.ofList_toList]

theorem ofText?_repeated {text name : String} {gap : List Char} (hname : Word name.toList)
    (hgap : Blank gap) (htext : Padded text.toList ("repeated ".toList ++ gap ++ name.toList)) :
    ofText? names text = repeated? names name := by
  have hstart : Word "repeated".toList := word_of_all (by decide) (by decide)
  have htight : Tight ("repeated ".toList ++ gap ++ name.toList) := by
    have h := hstart.tight.append hname.tight hstart.ne_nil hname.ne_nil (' ' :: gap)
    simpa using h
  have hangle : '<' ∉ "repeated ".toList ++ gap ++ name.toList := by
    have hgap' : '<' ∉ gap := hgap.not_mem (by decide)
    have hname' : '<' ∉ name.toList := hname.not_mem (by decide)
    simp [hgap', hname']
  have hrest : dropStart? "repeated ".toList ("repeated ".toList ++ gap ++ name.toList) =
      some (gap ++ name.toList) := by
    rw [dropStart?_eq_some_iff, List.append_assoc]
  have hinner : trim (gap ++ name.toList) = name.toList :=
    (trim_eq_iff hname.tight).2 ⟨gap, [], hgap, blank_nil, by simp⟩
  rw [ofText?_of_padded htight htext hangle, ofPlainText?, hrest]
  dsimp only
  rw [hinner, String.ofList_toList]

theorem tight_map (gap keyText valueText : List Char) :
    Tight ("map".toList ++ gap ++ '<' :: keyText ++ ',' :: valueText ++ ['>']) := by
  have hstart : Word "map".toList := word_of_all (by decide) (by decide)
  have hclose : Tight ['>'] := tight_singleton (by decide)
  have h := hstart.tight.append hclose hstart.ne_nil (by simp)
    (gap ++ '<' :: keyText ++ ',' :: valueText)
  simpa using h

theorem ofText?_map {text : String} {key value : Scalar} {gap keyText valueText : List Char}
    (hgap : Blank gap) (hkey : Padded keyText key.name.toList)
    (hvalue : Padded valueText value.name.toList)
    (htext : Padded text.toList
      ("map".toList ++ gap ++ '<' :: keyText ++ ',' :: valueText ++ ['>'])) :
    ofText? names text = some (.plain (.map key value)) := by
  have htrim := (trim_eq_iff (tight_map gap keyText valueText)).2 htext
  have hcomma : ',' ∉ keyText := by
    obtain ⟨before, after, hbefore, hafter, rfl⟩ := hkey
    have hbefore' : ',' ∉ before := hbefore.not_mem (by decide)
    have hafter' : ',' ∉ after := hafter.not_mem (by decide)
    have hname : ',' ∉ key.name.toList := (word_scalarName key).not_mem (by decide)
    simp [hbefore', hafter', hname]
  have hparts : mapParts? (trim text.toList) = some (key.name.toList, value.name.toList) := by
    rw [mapParts?_eq_some_iff, trim_trim]
    exact ⟨gap, keyText, valueText, hgap, hcomma, htrim,
      (trim_eq_iff (word_scalarName key).tight).2 hkey,
      (trim_eq_iff (word_scalarName value).tight).2 hvalue⟩
  rw [ofText?, hparts]
  exact map?_eq_some_iff.2 ⟨key, value, rfl, rfl, rfl⟩

theorem isSome_repeated? (names : Names) (name : String) :
    (repeated? names name).isSome = (single? names name).isSome := by
  rw [repeated?, single?]
  cases Scalar.ofName? name with
  | some s => rfl
  | none => simp

theorem denotes_of_map? {text key value : List Char} {type : FieldType}
    (hparts : mapParts? (trim text) = some (key, value)) (h : map? key value = some type) :
    Denotes declares text type := by
  obtain ⟨k, v, rfl, rfl, rfl⟩ := map?_eq_some_iff.1 h
  obtain ⟨gap, keyText, valueText, hgap, -, htext, hkey, hvalue⟩ :=
    mapParts?_eq_some_iff.1 hparts
  obtain ⟨hpadded, -⟩ := padded_trim text
  rw [trim_trim] at htext
  rw [htext] at hpadded
  exact .map k v hgap ((trim_eq_iff (word_scalarName k).tight).1 hkey)
    ((trim_eq_iff (word_scalarName v).tight).1 hvalue) hpadded

section

variable (hdeclared : ∀ name declared, declared? names name = some declared ↔ declares name declared)

include hdeclared

theorem exists_element_of_single? {name : String} {single : FieldType}
    (h : single? names name = some single) : ∃ list, Element declares name single list := by
  have hsome := isSome_repeated? names name
  rw [h] at hsome
  obtain ⟨list, hlist⟩ := Option.isSome_iff_exists.1 hsome
  exact ⟨list, element_of_eq_some hdeclared h hlist⟩

theorem exists_element_of_repeated? {name : String} {list : FieldType}
    (h : repeated? names name = some list) : ∃ single, Element declares name single list := by
  have hsome := isSome_repeated? names name
  rw [h] at hsome
  obtain ⟨single, hsingle⟩ := Option.isSome_iff_exists.1 hsome.symm
  exact ⟨single, element_of_eq_some hdeclared hsingle h⟩

theorem denotes_of_ofPlainText? {text : List Char} {type : FieldType}
    (h : ofPlainText? names (trim text) = some type) : Denotes declares text type := by
  obtain ⟨hpadded, -⟩ := padded_trim text
  rw [ofPlainText?] at h
  cases hstart : dropStart? "repeated ".toList (trim text) with
  | some inner =>
    rw [hstart] at h
    obtain ⟨single, helement⟩ := exists_element_of_repeated? hdeclared h
    obtain ⟨⟨gap, after, hgap, hafter, hinner⟩, -⟩ := padded_trim inner
    refine .repeated helement hgap (hpadded.trans ⟨[], after, blank_nil, hafter, ?_⟩)
    rw [dropStart?_eq_some_iff.1 hstart, String.toList_ofList]
    conv_lhs => rw [hinner]
    simp
  | none =>
    rw [hstart] at h
    obtain ⟨list, helement⟩ := exists_element_of_single? hdeclared h
    refine .single helement ?_
    rw [String.toList_ofList]
    exact hpadded

theorem denotes_of_ofText? {text : String} {type : FieldType}
    (h : ofText? names text = some type) : Denotes declares text.toList type := by
  cases hparts : mapParts? (trim text.toList) with
  | some parts =>
    rw [ofText?, hparts] at h
    exact denotes_of_map? hparts h
  | none =>
    rw [ofText?_of_mapParts?_eq_none hparts] at h
    exact denotes_of_ofPlainText? hdeclared h

variable (hvalid : ∀ name declared, declares name declared → Name.isTypeName name = true)

include hvalid

theorem ofText?_of_denotes {text : String} {type : FieldType}
    (h : Denotes declares text.toList type) : ofText? names text = some type := by
  cases h with
  | single hname htext =>
    rw [ofText?_single (hname.word hvalid) htext]
    exact (hname.eq_some hdeclared hvalid).1
  | repeated hname hgap htext =>
    rw [ofText?_repeated (hname.word hvalid) hgap htext]
    exact (hname.eq_some hdeclared hvalid).2
  | map key value hgap hkey hvalue htext => exact ofText?_map hgap hkey hvalue htext

theorem ofText?_eq_some_iff {text : String} {type : FieldType} :
    ofText? names text = some type ↔ Denotes declares text.toList type :=
  ⟨denotes_of_ofText? hdeclared, ofText?_of_denotes hdeclared hvalid⟩

theorem Denotes.unique {text : String} {type type' : FieldType}
    (h : Denotes declares text.toList type) (h' : Denotes declares text.toList type') :
    type = type' :=
  Option.some.inj ((ofText?_of_denotes hdeclared hvalid h).symm.trans
    (ofText?_of_denotes hdeclared hvalid h'))

end

end FieldType

end LayeredConfig
