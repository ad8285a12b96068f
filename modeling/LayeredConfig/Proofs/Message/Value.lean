import LayeredConfig.Message.Clean
import LayeredConfig.Message.Decode
import LayeredConfig.Message.Encode
import LayeredConfig.Proofs.Except
import LayeredConfig.Proofs.Json.Merge
import LayeredConfig.Proofs.Number.Decimal
import Mathlib.Data.List.Nodup

/-!
# Values in documents

A document fits a type in exactly the form in which the values of the type are
written (`ValueType.fits_iff`), and every value is read back from its document
and from the text of its key.  The reader of keys is stricter than the test that
a key fits: it takes exactly the texts that are written (`Scalar.decodeKey_eq_ok_iff`).
-/

namespace LayeredConfig

namespace Scalar

/-- The documents of a type: strings, the literals of truth values, and the whole
numbers that 32 bits hold. -/
def Holds : Scalar → Json → Prop
  | string, json => ∃ text, json = .string text
  | bool, json => ∃ b, json = .bool b
  | int32, json => ∃ n : Int, (-2147483648 ≤ n ∧ n ≤ 2147483647) ∧ json = .number (.int n)

theorem ofJson?_eq_some_iff {s : Scalar} {json : Json} {v : s.Val} :
    s.ofJson? json = some v ↔ json = s.toJson v := by
  cases s with
  | string => cases json <;> simp [ofJson?, toJson]
  | bool => cases json <;> simp [ofJson?, toJson]
  | int32 =>
    -- of the numbers only the whole ones can have 32 bits
    rcases json with _ | _ | ⟨n | x⟩ | _ | _ | _ <;>
      simp [ofJson?, toJson, int32OfInt?_eq_some_iff, eq_comm]

/-- A document is read exactly if it is one of the type: a number with a fraction or
outside the range of 32 bits is not. -/
theorem isSome_ofJson?_iff {s : Scalar} {json : Json} :
    (s.ofJson? json).isSome ↔ s.Holds json := by
  simp only [Option.isSome_iff_exists, ofJson?_eq_some_iff]
  cases s with
  | string => exact Iff.rfl
  | bool => exact Iff.rfl
  | int32 =>
    constructor
    · rintro ⟨v, rfl⟩
      exact ⟨v.toInt, ⟨v.le_toInt, Int.le_of_lt_add_one v.toInt_lt⟩, rfl⟩
    · rintro ⟨n, ⟨hmin, hmax⟩, rfl⟩
      refine ⟨Int32.ofInt n, ?_⟩
      rw [toJson, Int32.toInt_ofInt_of_le hmin (by omega)]

theorem ofJson?_toJson (s : Scalar) (v : s.Val) : s.ofJson? (s.toJson v) = some v :=
  ofJson?_eq_some_iff.2 rfl

theorem decode_of_ofJson? {s : Scalar} {json : Json} {v : s.Val} (h : s.ofJson? json = some v) :
    s.decode json = .ok v := by
  unfold decode
  rw [h]

theorem sort_toJson (s : Scalar) (v : s.Val) : (s.toJson v).sort = s.toJson v := by
  cases s with
  | string => rfl
  | bool => rfl
  | int32 => rfl

theorem ofText?_toText (s : Scalar) (v : s.Val) : s.ofText? (s.toText v) = some v := by
  cases s with
  | string => rfl
  | bool =>
    cases v with
    | false => rfl
    | true => rfl
  | int32 => exact readInt32?_writeInt32 v

theorem toText_injective (s : Scalar) : Function.Injective s.toText := by
  intro v w h
  have hread := s.ofText?_toText v
  rw [h, s.ofText?_toText] at hread
  exact (Option.some.inj hread).symm

theorem decodeKey_eq_ok_iff {s : Scalar} {key : String} {v : s.Val} :
    s.decodeKey key = .ok v ↔ key = s.toText v := by
  cases s with
  | string => exact ⟨Except.ok.inj, congrArg Except.ok⟩
  | int32 => exact decodeInt32Key_eq_ok_iff
  | bool =>
    rw [decodeKey, readBool?, toText]
    by_cases htrue : key = "true"
    · cases v with
      | false => simp [htrue]
      | true => simp [htrue]
    · by_cases hfalse : key = "false"
      · cases v with
        | false => simp [hfalse]
        | true => simp [hfalse]
      · cases v with
        | false => simp [htrue, hfalse]
        | true => simp [htrue, hfalse]

end Scalar

namespace EnumType

theorem ofName?_valueName (e : EnumType) (v : e.Val) : e.ofName? (e.valueName v) = some v := by
  rw [ofName?, List.finIdxOf?_eq_some_iff]
  refine ⟨rfl, fun j hj heq => ?_⟩
  have hinjective : Function.Injective e.names.get := List.nodup_iff_injective_get.1 e.distinct
  exact absurd (hinjective heq) (Fin.ne_of_lt hj)

theorem ofName?_eq_some_iff {e : EnumType} {name : String} {v : e.Val} :
    e.ofName? name = some v ↔ name = e.valueName v := by
  constructor
  · intro h
    exact ((List.finIdxOf?_eq_some_iff.1 h).1).symm
  · rintro rfl
    exact e.ofName?_valueName v

end EnumType

namespace ValueType

/-- The documents of a type; for an enum the strings that name a value. -/
def Holds : ValueType → Json → Prop
  | scalar s, json => s.Holds json
  | enum e, json => ∃ name ∈ e.names, json = .string name

theorem ofJson?_eq_some_iff {t : ValueType} {json : Json} {v : t.Val} :
    t.ofJson? json = some v ↔ json = t.toJson v := by
  cases t with
  | scalar s => exact Scalar.ofJson?_eq_some_iff
  | enum e =>
    cases json with
    | string name => simpa [ofJson?, toJson] using EnumType.ofName?_eq_some_iff
    | null | bool b | number n | array items | object members => simp [ofJson?, toJson]

theorem fits_iff {t : ValueType} {json : Json} : t.fits json = true ↔ t.Holds json := by
  cases t with
  | scalar s => exact Scalar.isSome_ofJson?_iff
  | enum e =>
    rw [fits, Option.isSome_iff_exists]
    constructor
    · rintro ⟨v, h⟩
      exact ⟨e.valueName v, List.get_mem _ _, ofJson?_eq_some_iff.1 h⟩
    · rintro ⟨name, hname, rfl⟩
      obtain ⟨v, rfl⟩ := List.mem_iff_get.1 hname
      exact ⟨v, ofJson?_eq_some_iff.2 rfl⟩

theorem ofJson?_toJson (t : ValueType) (v : t.Val) : t.ofJson? (t.toJson v) = some v :=
  ofJson?_eq_some_iff.2 rfl

theorem decode_of_ofJson? {t : ValueType} {json : Json} {v : t.Val}
    (h : t.ofJson? json = some v) : t.decode json = .ok v := by
  cases t with
  | scalar s => exact Scalar.decode_of_ofJson? h
  | enum e =>
    cases json with
    | string name =>
      have hname : e.ofName? name = some v := h
      rw [decode, EnumType.decode, EnumType.decodeName, hname]
    | null | bool b | number n | array items | object members => exact nomatch h

theorem decode_toJson (t : ValueType) (v : t.Val) : t.decode (t.toJson v) = .ok v :=
  decode_of_ofJson? (t.ofJson?_toJson v)

theorem sort_toJson (t : ValueType) (v : t.Val) : (t.toJson v).sort = t.toJson v := by
  cases t with
  | scalar s => exact s.sort_toJson v
  | enum e => rfl

end ValueType

end LayeredConfig
