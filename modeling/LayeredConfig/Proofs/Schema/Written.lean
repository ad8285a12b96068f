import LayeredConfig.Proofs.Schema.Resolve

/-!
# Written types over a table of names

`FieldType.Denotes` relates texts to types.  Over a table of declared names it is
what reading does, and the types it reaches are those whose enums and messages
the table declares (`DeclaredIn`), each through the text that writes it
(`written`).  A text without a type is refused as a map if it looks like one
(`MapShape`) and as unknown otherwise.
-/

namespace LayeredConfig

open Text

/-- What the entries of a table say that its names stand for. -/
def Names.Declares (names : Names) (name : String) (declared : Declared) : Prop :=
  (name, declared) ∈ names

/-- A table that gives each name one meaning, and an enum under its own name. -/
structure Names.WellFormed (names : Names) : Prop where
  distinct : (names.map Prod.fst).Nodup
  valid : ∀ name declared, names.Declares name declared → Name.isTypeName name = true
  enums : ∀ name type, names.Declares name (.enum type) → type.name = name

def ValueType.written : ValueType → String
  | scalar s => s.name
  | enum e => e.name

/-- A scalar type, or an enum that the table declares. -/
def ValueType.DeclaredIn (names : Names) : ValueType → Prop
  | scalar _ => True
  | enum e => names.Declares e.name (.enum e)

namespace FieldType

def written : FieldType → String
  | plain (.leaf type) => type.written
  | plain (.list type) => "repeated " ++ type.written
  | plain (.map key value) => "map<" ++ key.name ++ "," ++ value.name ++ ">"
  | message name => name
  | messageList name => "repeated " ++ name

def DeclaredIn (names : Names) : FieldType → Prop
  | plain (.leaf type) | plain (.list type) => type.DeclaredIn names
  | plain (.map _ _) => True
  | message name | messageList name => names.Declares name .message

/-- A text that is written like a map, whatever stands for the two types. -/
def MapShape (text : List Char) : Prop :=
  ∃ gap key value, Blank gap ∧
    Padded text ("map".toList ++ gap ++ '<' :: key ++ ',' :: value ++ ['>'])

variable {names : Names} {declares : String → Declared → Prop}

/-! ## Types and their texts -/

theorem Element.of_valueType {type : ValueType} (h : type.DeclaredIn names) :
    Element names.Declares type.written (.plain (.leaf type)) (.plain (.list type)) := by
  cases type with
  | scalar s => exact .scalar s
  | enum e => exact .enum h

theorem denotes_of_single {name : String} {single list : FieldType}
    (h : Element declares name single list) : Denotes declares name.toList single :=
  .single h (.refl _)

theorem denotes_of_list {name : String} {single list : FieldType}
    (h : Element declares name single list) :
    Denotes declares ("repeated " ++ name).toList list := by
  refine .repeated h blank_nil ?_
  rw [String.toList_append, List.append_nil]
  exact .refl _

theorem denotes_written {type : FieldType} (h : type.DeclaredIn names) :
    Denotes names.Declares type.written.toList type := by
  cases type with
  | plain kind =>
    cases kind with
    | leaf type => exact denotes_of_single (.of_valueType h)
    | list type => exact denotes_of_list (.of_valueType h)
    | map key value =>
      refine .map key value blank_nil (.refl _) (.refl _) ?_
      have htext : (written (.plain (.map key value))).toList =
          "map".toList ++ [] ++ '<' :: key.name.toList ++ ',' :: value.name.toList ++ ['>'] := by
        simp [written]
      rw [htext]
      exact .refl _
  | message name => exact denotes_of_single (.message h)
  | messageList name => exact denotes_of_list (.message h)

theorem Element.declaredIn (hnames : names.WellFormed) {name : String} {single list : FieldType}
    (h : Element names.Declares name single list) :
    single.DeclaredIn names ∧ list.DeclaredIn names := by
  cases h with
  | scalar s => exact ⟨trivial, trivial⟩
  | enum h =>
    obtain rfl := hnames.enums _ _ h
    exact ⟨h, h⟩
  | message h => exact ⟨h, h⟩

theorem Denotes.declaredIn (hnames : names.WellFormed) {text : List Char} {type : FieldType}
    (h : Denotes names.Declares text type) : type.DeclaredIn names := by
  cases h with
  | single h _ => exact (h.declaredIn hnames).1
  | repeated h _ _ => exact (h.declaredIn hnames).2
  | map key value _ _ _ _ => trivial

/-! ## Texts that are refused -/

theorem isSome_mapTexts?_iff {text : String} :
    (mapTexts? text).isSome = true ↔ MapShape text.toList := by
  have hparts : (mapTexts? text).isSome = true ↔
      ∃ key value, mapParts? text.toList = some (key, value) := by
    rw [mapTexts?, Option.isSome_map, Option.isSome_iff_exists, Prod.exists]
  rw [hparts]
  constructor
  · rintro ⟨key, value, h⟩
    obtain ⟨gap, keyText, valueText, hgap, -, htext, -, -⟩ := mapParts?_eq_some_iff.1 h
    exact ⟨gap, keyText, valueText, hgap, (trim_eq_iff (tight_map _ _ _)).1 htext⟩
  · rintro ⟨gap, keyText, valueText, hgap, htext⟩
    -- The reader cuts at the first comma, which may stand before the one of the shape.
    have hcomma : ',' ∈ keyText ++ ',' :: valueText :=
      List.mem_append_right _ List.mem_cons_self
    obtain ⟨keyText', valueText', hsplit, hfirst⟩ := List.eq_append_cons_of_mem hcomma
    refine ⟨trim keyText', trim valueText', mapParts?_eq_some_iff.2
      ⟨gap, keyText', valueText', hgap, hfirst, ?_, rfl, rfl⟩⟩
    refine (trim_eq_iff (tight_map _ _ _)).2 ?_
    have hsame : "map".toList ++ gap ++ '<' :: keyText' ++ ',' :: valueText' ++ ['>'] =
        "map".toList ++ gap ++ '<' :: keyText ++ ',' :: valueText ++ ['>'] := by
      simp [← hsplit]
    rw [hsame]
    exact htext

theorem fieldType_eq_error {message : String} {raw : RawField}
    (h : ofText? names raw.type = none) :
    (Schema.fieldType names message raw = .error (.invalidMap message raw.name raw.type) ↔
      MapShape raw.type.toList) ∧
    (Schema.fieldType names message raw = .error (.unknownType message raw.name raw.type) ↔
      ¬ MapShape raw.type.toList) := by
  rw [Schema.fieldType, h, ← isSome_mapTexts?_iff]
  dsimp only
  split_ifs with hshape <;> simp [hshape]

/-- Reading type texts over a table of declared names.  A text is read exactly as the
type that it denotes, of which there is one at most; the types that are reached
are those over the table, each through the text that writes it; and a text that
is not read is refused as an invalid map if it has the shape of one, and as an
unknown type if it has not. -/
theorem ofText?_reads_grammar (hnames : names.WellFormed) :
    (∀ text type, ofText? names text = some type ↔
      Denotes names.Declares text.toList type) ∧
    (∀ text type type', Denotes names.Declares text type → Denotes names.Declares text type' →
      type = type') ∧
    (∀ type, (∃ text, ofText? names text = some type) ↔ type.DeclaredIn names) ∧
    (∀ type, type.DeclaredIn names → ofText? names type.written = some type) ∧
    ∀ message raw, ofText? names raw.type = none →
      (Schema.fieldType names message raw = .error (.invalidMap message raw.name raw.type) ↔
        MapShape raw.type.toList) ∧
      (Schema.fieldType names message raw = .error (.unknownType message raw.name raw.type) ↔
        ¬ MapShape raw.type.toList) := by
  have hdeclared : ∀ name declared, declared? names name = some declared ↔
      names.Declares name declared := fun _ _ => Schema.declared?_eq_some_iff hnames.distinct
  have hreads : ∀ text type, ofText? names text = some type ↔
      Denotes names.Declares text.toList type :=
    fun _ _ => ofText?_eq_some_iff hdeclared hnames.valid
  have hwritten : ∀ type : FieldType, type.DeclaredIn names →
      ofText? names type.written = some type :=
    fun type h => (hreads _ _).2 (denotes_written h)
  refine ⟨hreads, fun text type type' h h' => ?_, fun type => ⟨?_, ?_⟩, hwritten,
    fun _ _ => fieldType_eq_error⟩
  · rw [← String.toList_ofList (l := text)] at h h'
    exact h.unique hdeclared hnames.valid h'
  · rintro ⟨text, h⟩
    exact ((hreads text type).1 h).declaredIn hnames
  · exact fun h => ⟨type.written, hwritten type h⟩

def sampleNames : Names :=
  [("Mode", .enum { name := "Mode", first := "FAST", rest := ["SLOW"] }), ("Limits", .message)]

/-- A list of the declared message, a map with white space in it, and two texts that are
refused: a map to a message, and a list of maps. -/
theorem ofText?_sampleNames :
    sampleNames.WellFormed ∧
      ofText? sampleNames "repeated   Limits " = some (.messageList "Limits") ∧
      ofText? sampleNames " map <string , int32>" = some (.plain (.map .string .int32)) ∧
      (∀ message field doc,
        Schema.fieldType sampleNames message ⟨field, "map<string, Limits>", doc⟩ =
          .error (.invalidMap message field "map<string, Limits>")) ∧
      ∀ message field doc,
        Schema.fieldType sampleNames message ⟨field, "repeated map<string, bool>", doc⟩ =
          .error (.unknownType message field "repeated map<string, bool>") := by
  have hnames : sampleNames.WellFormed := by
    refine ⟨by decide, fun name declared h => ?_, fun name type h => ?_⟩
    · rcases List.mem_pair.1 h with h | h <;> cases h <;> rfl
    · rcases List.mem_pair.1 h with h | h <;> cases h
      rfl
  obtain ⟨hreads, -, -, -, hrefused⟩ := ofText?_reads_grammar hnames
  have hblank : ∀ cs : List Char, (cs.all isWhiteSpace) = true → Blank cs :=
    fun cs h => List.all_eq_true.1 h
  have hshape : MapShape "map<string, Limits>".toList := isSome_mapTexts?_iff.1 (by decide)
  have hnone : ofText? sampleNames "map<string, Limits>" = none := by decide
  have hnoshape : ¬ MapShape "repeated map<string, bool>".toList :=
    fun h => absurd (isSome_mapTexts?_iff.2 h) (by decide)
  have hnone' : ofText? sampleNames "repeated map<string, bool>" = none := by decide
  refine ⟨hnames, (hreads _ _).2 ?_, (hreads _ _).2 ?_, fun message field doc => ?_,
    fun message field doc => ?_⟩
  · exact .repeated (.message (List.mem_cons_of_mem _ List.mem_cons_self))
      (hblank [' ', ' '] rfl) ⟨[], [' '], blank_nil, hblank _ rfl, rfl⟩
  · have hkey : Padded "string ".toList Scalar.string.name.toList :=
      ⟨[], [' '], blank_nil, hblank _ rfl, rfl⟩
    have hvalue : Padded " int32".toList Scalar.int32.name.toList :=
      ⟨[' '], [], hblank _ rfl, blank_nil, rfl⟩
    exact .map .string .int32 (hblank [' '] rfl) hkey hvalue
      ⟨[' '], [], hblank _ rfl, blank_nil, rfl⟩
  · exact (hrefused message ⟨field, _, doc⟩ hnone).1.2 hshape
  · exact (hrefused message ⟨field, _, doc⟩ hnone').2.2 hnoshape

end FieldType

end LayeredConfig
