import LayeredConfig.Environment
import LayeredConfig.Proofs.Message.Value
import LayeredConfig.Proofs.Text.Split
import LayeredConfig.Proofs.Text.Trim

/-!
# What variables say

The value that a text spells is a relation between texts and values, and so are the lists that
a text spells: it is cut at its commas, and for all types but strings white space is taken off
the pieces, and those that spell no value are passed over.  A variable says what its text
spells, and an absent or empty one says nothing (`Environment.ReadsAs`, `Environment.ReadsAsList`).

The readers of the environment find exactly what is said (`readsAs_iff`, `readsAsList_iff`).
-/

namespace LayeredConfig

open Text

/-! ## Numerals -/

/-- At least one decimal digit, and the number that the digits denote. -/
structure DigitsOf (ds : List Char) (n : Nat) : Prop where
  ne_nil : ds ≠ []
  isDigit : ∀ d ∈ ds, d.isDigit = true
  value : Nat.ofDigitChars 10 ds 0 = n

/-- Digits after a sign or without one. -/
inductive Numeral : List Char → Int → Prop
  | unsigned {ds : List Char} {n : Nat} (h : DigitsOf ds n) : Numeral ds n
  | plus {ds : List Char} {n : Nat} (h : DigitsOf ds n) : Numeral ('+' :: ds) n
  | minus {ds : List Char} {n : Nat} (h : DigitsOf ds n) : Numeral ('-' :: ds) (-n)

theorem readDigits?_eq_some_iff {ds : List Char} {n : Nat} :
    readDigits? ds = some n ↔ DigitsOf ds n := by
  rw [readDigits?, Option.ite_none_right_eq_some, Bool.and_eq_true, List.all_eq_true,
    Option.some.injEq, ← Nat.ofDigitChars_eq_foldl]
  constructor
  · rintro ⟨⟨hne, hdigit⟩, hvalue⟩
    exact ⟨by simpa using hne, hdigit, hvalue⟩
  · rintro ⟨hne, hdigit, hvalue⟩
    exact ⟨⟨by simpa using hne, hdigit⟩, hvalue⟩

theorem DigitsOf.head_ne {c : Char} {cs : List Char} {n : Nat} (h : DigitsOf (c :: cs) n) :
    c ≠ '+' ∧ c ≠ '-' := by
  have hdigit := h.isDigit c List.mem_cons_self
  constructor <;> rintro rfl <;> exact absurd hdigit (by decide)

theorem readInteger?_eq_some_iff {cs : List Char} {n : Int} :
    readInteger? cs = some n ↔ Numeral cs n := by
  have hread : ∀ {ds : List Char} {f : Int → Int},
      ((do let m ← readDigits? ds; pure (m : Int)).map f = some n) ↔
        ∃ m : Nat, DigitsOf ds m ∧ f m = n := by
    simp [Option.bind_eq_some_iff, readDigits?_eq_some_iff]
  constructor
  · intro h
    rw [readInteger?.eq_def] at h
    split at h <;> obtain ⟨m, hm, rfl⟩ := hread.1 h
    · exact .minus hm
    · exact .plus hm
    · exact .unsigned hm
  · rintro (h | h | h)
    · rw [readInteger?.eq_def]
      split
      · exact absurd rfl h.head_ne.2
      · exact absurd rfl h.head_ne.1
      · exact hread.2 ⟨_, h, rfl⟩
    · exact hread.2 ⟨_, h, rfl⟩
    · exact hread.2 ⟨_, h, rfl⟩

theorem readInt32?_eq_some_iff {text : String} {n : Int32} :
    readInt32? text = some n ↔ Numeral text.toList n.toInt := by
  simp only [readInt32?, Option.bind_eq_some_iff, int32OfInt?_eq_some_iff,
    readInteger?_eq_some_iff, exists_eq_right']

/-! ## Values and lists -/

/-- The pieces of a text between its commas. -/
structure Cut (text : String) (pieces : List String) : Prop where
  ne_nil : pieces ≠ []
  comma : ∀ piece ∈ pieces, ',' ∉ piece.toList
  text_eq : ",".intercalate pieces = text

theorem cut_iff {text : String} {pieces : List String} :
    Cut text pieces ↔ splitString ',' text = pieces := by
  constructor
  · rintro ⟨hne, hcomma, rfl⟩
    exact splitString_intercalate hne hcomma
  · rintro rfl
    exact ⟨splitString_ne_nil ',' text, fun _ => not_mem_of_mem_splitString,
      intercalate_splitString ',' text⟩

/-- A text and what is left of it without the white space at its ends. -/
structure Trimmed (text core : String) : Prop where
  padded : Padded text.toList core.toList
  tight : Tight core.toList

theorem trimmed_iff {text core : String} : Trimmed text core ↔ trimString text = core := by
  constructor
  · rintro ⟨hpadded, htight⟩
    rw [trimString, (trim_eq_iff htight).2 hpadded, String.ofList_toList]
  · rintro rfl
    obtain ⟨hpadded, htight⟩ := padded_trim text.toList
    refine ⟨?_, ?_⟩ <;> rwa [trimString, String.toList_ofList]

namespace ValueType

/-- The text is one for the value. -/
def Spelled : (t : ValueType) → (text : String) → t.Val → Prop
  | scalar .string, text, (v : String) => text = v
  | scalar .bool, text, (v : Bool) => text = if v then "true" else "false"
  | scalar .int32, text, (v : Int32) => Numeral text.toList v.toInt
  | enum e, text, v => text = e.names.get v

theorem ofText?_eq_some_iff {t : ValueType} {text : String} {v : t.Val} :
    t.ofText? text = some v ↔ t.Spelled text v := by
  cases t with
  | scalar s =>
    cases s with
    | string => exact Option.some_inj
    | bool =>
      change Scalar.readBool? text = some v ↔ text = if v then "true" else "false"
      rw [Scalar.readBool?]
      cases v <;> grind
    | int32 => exact readInt32?_eq_some_iff
  | enum e => exact EnumType.ofName?_eq_some_iff

theorem ofText?_eq_none_iff {t : ValueType} {text : String} :
    t.ofText? text = none ↔ ∀ v, ¬ t.Spelled text v := by
  simp only [Option.eq_none_iff_forall_ne_some, ne_eq, ofText?_eq_some_iff]

/-- The values that pieces of a text spell, in order. -/
inductive Picks (t : ValueType) : (pieces : List String) → List t.Val → Prop
  | nil : Picks t [] []
  | value {piece core : String} {v : t.Val} {pieces : List String} {values : List t.Val}
    (hcore : Trimmed piece core) (hv : t.Spelled core v) (hrest : Picks t pieces values) :
    Picks t (piece :: pieces) (v :: values)
  /-- A piece that spells no value is passed over. -/
  | none {piece core : String} {pieces : List String} {values : List t.Val}
    (hcore : Trimmed piece core) (hnone : ∀ v, ¬ t.Spelled core v)
    (hrest : Picks t pieces values) : Picks t (piece :: pieces) values

theorem picks_iff {t : ValueType} {pieces : List String} {values : List t.Val} :
    t.Picks pieces values ↔
      (pieces.filterMap fun piece => t.ofText? (trimString piece)) = values := by
  constructor
  · intro h
    induction h with
    | nil => rfl
    | value hcore hv _ ih =>
      rw [List.filterMap_cons, trimmed_iff.1 hcore, ofText?_eq_some_iff.2 hv, ih]
    | none hcore hnone _ ih =>
      rw [List.filterMap_cons, trimmed_iff.1 hcore, ofText?_eq_none_iff.2 hnone, ih]
  · rintro rfl
    induction pieces with
    | nil => exact .nil
    | cons piece pieces ih =>
      have hcore : Trimmed piece (trimString piece) := trimmed_iff.2 rfl
      rw [List.filterMap_cons]
      cases hread : t.ofText? (trimString piece) with
      | none => exact .none hcore (ofText?_eq_none_iff.1 hread) ih
      | some v => exact .value hcore (ofText?_eq_some_iff.1 hread) ih

/-- The text is one for the list.  Strings are its pieces as they are. -/
def SpelledList : (t : ValueType) → (text : String) → List t.Val → Prop
  | scalar .string, text, values => Cut text values
  | t, text, values => ∃ pieces, Cut text pieces ∧ t.Picks pieces values

theorem listOfText_eq_iff {t : ValueType} {text : String} {values : List t.Val} :
    t.listOfText text = values ↔ t.SpelledList text values := by
  have hpicks : (splitString ',' text).filterMap (fun piece => t.ofText? (trimString piece)) =
      values ↔ ∃ pieces, Cut text pieces ∧ t.Picks pieces values := by
    simp only [cut_iff, picks_iff, exists_eq_left']
  cases t with
  | scalar s =>
    cases s with
    | string => exact cut_iff.symm
    | bool | int32 => exact hpicks
  | enum e => exact hpicks

end ValueType

/-! ## Variables -/

namespace Environment

/-- The variable has the text; the empty text is none. -/
structure HasText (env : Environment) (name text : String) : Prop where
  find?_eq : env.texts.find? name = some text
  ne_empty : text ≠ ""

/-- The value that a variable says, if it says one. -/
def ReadsAs (env : Environment) (name : String) (t : ValueType) (read : Option t.Val) : Prop :=
  ∀ v, read = some v ↔ ∃ text, env.HasText name text ∧ t.Spelled text v

/-- The list that a variable says.  Without a text it is the empty one. -/
def ReadsAsList (env : Environment) (name : String) (t : ValueType) (read : List t.Val) : Prop :=
  (∃ text, env.HasText name text ∧ t.SpelledList text read) ∨
    (∀ text, ¬ env.HasText name text) ∧ read = []

variable {env : Environment} {name : String} {t : ValueType}

theorem text?_eq_some_iff {text : String} : env.text? name = some text ↔ env.HasText name text := by
  rw [text?, Option.filter_eq_some_iff, bne_iff_ne]
  exact ⟨fun h => ⟨h.1, h.2⟩, fun h => ⟨h.1, h.2⟩⟩

theorem readsAs_iff {read : Option t.Val} : env.ReadsAs name t read ↔ read = env.value? name t := by
  have hvalue : ∀ v, env.value? name t = some v ↔
      ∃ text, env.HasText name text ∧ t.Spelled text v := by
    simp only [value?, Option.bind_eq_some_iff, text?_eq_some_iff, ValueType.ofText?_eq_some_iff,
      implies_true]
  simp only [ReadsAs, ← hvalue]
  exact ⟨Option.ext, fun h v => h ▸ Iff.rfl⟩

theorem ReadsAs.unique {read read' : Option t.Val} (h : env.ReadsAs name t read)
    (h' : env.ReadsAs name t read') : read = read' := Option.ext fun v => (h v).trans (h' v).symm

theorem readsAsList_iff {read : List t.Val} :
    env.ReadsAsList name t read ↔ read = ((env.text? name).map t.listOfText).getD [] := by
  simp only [ReadsAsList, ← text?_eq_some_iff, ← ValueType.listOfText_eq_iff]
  cases env.text? name with
  | none => simp
  | some text => simp [eq_comm]

theorem ReadsAsList.unique {read read' : List t.Val} (h : env.ReadsAsList name t read)
    (h' : env.ReadsAsList name t read') : read = read' :=
  (readsAsList_iff.1 h).trans (readsAsList_iff.1 h').symm

end Environment

end LayeredConfig
