import LayeredConfig.Message.Decode
import Mathlib.Data.List.TakeWhile

/-!
# Canonical decimal keys

The keys of a map of integers are written in decimal.  Reading a key as a JSON
number accepts exactly what writing produces (`decodeInt32Key_eq_ok_iff`), while
reading it as text of the environment accepts more, such as a plus sign or
leading zeros; on written keys both readers agree (`readInt32?_writeInt32`).
The key fact is that digits without a leading zero are the digits of their
number.
-/

namespace LayeredConfig

/-! ## Digits and their number -/

theorem digitChar_of_isDigit {c : Char} (h : c.isDigit = true) :
    c.toNat - '0'.toNat < 10 ∧ (c.toNat - '0'.toNat).digitChar = c := by
  have hc : 48 ≤ c.toNat ∧ c.toNat ≤ 57 := by
    simpa [Char.isDigit, Char.le_def, UInt32.le_iff_toNat_le] using h
  have hlt : c.toNat - '0'.toNat < 10 := by
    show c.toNat - 48 < 10
    omega
  refine ⟨hlt, Char.ext (UInt32.toNat_inj.1 ?_)⟩
  have htoNat := Nat.toNat_digitChar_of_lt_ten hlt
  show (c.toNat - '0'.toNat).digitChar.toNat = c.toNat
  rw [htoNat]
  show 48 + (c.toNat - 48) = c.toNat
  omega

/-- Digits after the digits of a positive number are the last digits of the
number they all denote. -/
theorem toDigits_ofDigitChars {ds : List Char} (hds : ∀ c ∈ ds, c.isDigit = true) {n : Nat}
    (hn : 0 < n) : Nat.toDigits 10 (Nat.ofDigitChars 10 ds n) = Nat.toDigits 10 n ++ ds := by
  induction ds generalizing n with
  | nil => simp
  | cons d ds ih =>
    obtain ⟨hlt, hchar⟩ := digitChar_of_isDigit (hds d List.mem_cons_self)
    have hrest := fun c hc => hds c (List.mem_cons_of_mem d hc)
    rw [Nat.ofDigitChars_cons, ih hrest (by omega),
      ← Nat.toDigits_append_toDigits (by decide) hn hlt, Nat.toDigits_of_lt_base hlt, hchar]
    simp

/-- Digits without a leading zero are the digits of the number they denote. -/
theorem toDigits_ofDigitChars_zero {d : Char} {ds : List Char}
    (hds : ∀ c ∈ d :: ds, c.isDigit = true) (hlead : d = '0' → ds = []) :
    Nat.toDigits 10 (Nat.ofDigitChars 10 (d :: ds) 0) = d :: ds := by
  obtain ⟨hlt, hchar⟩ := digitChar_of_isDigit (hds d List.mem_cons_self)
  have hrest := fun c hc => hds c (List.mem_cons_of_mem d hc)
  rw [Nat.ofDigitChars_cons, Nat.mul_zero, Nat.zero_add]
  by_cases hd : d = '0'
  · subst hd
    rw [hlead rfl]
    rfl
  · have hpos : 0 < d.toNat - '0'.toNat := by
      rcases Nat.eq_zero_or_pos (d.toNat - '0'.toNat) with h0 | h0
      · rw [h0] at hchar
        exact absurd hchar.symm hd
      · exact h0
    rw [toDigits_ofDigitChars hrest hpos, Nat.toDigits_of_lt_base hlt, hchar]
    rfl

theorem head?_toDigits_ne_zero {n : Nat} (hn : 0 < n) :
    (Nat.toDigits 10 n).head? ≠ some '0' := by
  induction n using Nat.strongRecOn with
  | ind n ih =>
    rcases Nat.lt_or_ge n 10 with hlt | hge
    · rw [Nat.toDigits_of_lt_base hlt]
      simpa using Nat.pos_iff_ne_zero.1 hn
    · rw [Nat.toDigits_of_base_le (by decide) hge, List.head?_append,
        Option.or_of_isSome (List.isSome_head?.2 (by simp))]
      exact ih (n / 10) (by omega) (by omega)

theorem toDigits_ne_zero_cons_cons (n : Nat) (c : Char) (cs : List Char) :
    Nat.toDigits 10 n ≠ '0' :: c :: cs := by
  intro h
  rcases Nat.eq_zero_or_pos n with hn | hn
  · subst hn
    simp at h
  · exact head?_toDigits_ne_zero hn (by rw [h]; rfl)

theorem isDigit_of_mem_toDigits {n : Nat} {c : Char} (hc : c ∈ Nat.toDigits 10 n) :
    c.isDigit = true :=
  Nat.isDigit_of_mem_toDigits (by decide) (by decide) hc

theorem toDigits_ne_sign_cons {c : Char} (hc : c.isDigit = false) (n : Nat) (cs : List Char) :
    Nat.toDigits 10 n ≠ c :: cs := by
  intro h
  have hdigit : c.isDigit = true := isDigit_of_mem_toDigits (by rw [h]; exact List.mem_cons_self)
  exact Bool.false_ne_true (hc.symm.trans hdigit)

theorem readDigits?_toDigits (n : Nat) : readDigits? (Nat.toDigits 10 n) = some n := by
  have hdigits : (Nat.toDigits 10 n).all Char.isDigit = true :=
    List.all_eq_true.2 fun _ hc => isDigit_of_mem_toDigits hc
  have hnil : (Nat.toDigits 10 n).isEmpty = false := by simp
  rw [readDigits?, hdigits, hnil, ← Nat.ofDigitChars_eq_foldl, Nat.ofDigitChars_ten_toDigits]
  rfl

theorem readInteger?_toDigits (n : Nat) : readInteger? (Nat.toDigits 10 n) = some (n : Int) := by
  rw [readInteger?.eq_def]
  split
  · rename_i cs h
    exact absurd h (toDigits_ne_sign_cons rfl n cs)
  · rename_i cs h
    exact absurd h (toDigits_ne_sign_cons rfl n cs)
  · rw [readDigits?_toDigits]
    rfl

/-! ## Written integers -/

theorem int32OfInt?_toInt (n : Int32) : int32OfInt? n.toInt = some n := by
  rw [int32OfInt?, if_pos ⟨n.minValue_le_toInt, n.toInt_le⟩, Int32.ofInt_toInt]

theorem toInt_of_int32OfInt? {n : Int} {value : Int32} (h : int32OfInt? n = some value) :
    value.toInt = n := by
  rw [int32OfInt?] at h
  split at h
  · rename_i hrange
    rw [Int32.toInt_minValue, Int32.toInt_maxValue] at hrange
    rw [← Option.some.inj h]
    exact Int32.toInt_ofInt_of_le hrange.1 (by omega)
  · exact nomatch h

theorem int32OfInt?_eq_some_iff {n : Int} {value : Int32} :
    int32OfInt? n = some value ↔ value.toInt = n :=
  ⟨toInt_of_int32OfInt?, fun h => h ▸ int32OfInt?_toInt value⟩

theorem toList_toString_int (n : Int) :
    (toString n).toList =
      if 0 ≤ n then Nat.toDigits 10 n.toNat else '-' :: Nat.toDigits 10 (-n).toNat := by
  rw [Int.toString_eq_repr, Int.repr_eq_if]
  by_cases h : 0 ≤ n
  · rw [if_pos h, if_pos h, Nat.toList_repr]
  · rw [if_neg h, if_neg h, String.toList_append, Nat.toList_repr]
    rfl

theorem toList_writeInt32 (n : Int32) :
    (writeInt32 n).toList =
      if 0 ≤ n.toInt then Nat.toDigits 10 n.toInt.toNat
      else '-' :: Nat.toDigits 10 (-n.toInt).toNat :=
  toList_toString_int n.toInt

theorem readInt32?_writeInt32 (n : Int32) : readInt32? (writeInt32 n) = some n := by
  have hread : readInteger? (writeInt32 n).toList = some n.toInt := by
    rw [toList_writeInt32]
    split
    · rename_i h
      rw [readInteger?_toDigits, Int.toNat_of_nonneg h]
    · rename_i h
      rw [readInteger?, readDigits?_toDigits]
      refine congrArg some ?_
      show -((-n.toInt).toNat : Int) = n.toInt
      omega
  rw [readInt32?, hread]
  exact int32OfInt?_toInt n

/-! ## Keys read as JSON numbers -/

section Keys

open Json.Reader

theorem accumulate_fst_of_nil {ds : List Char} {s : Nat} (h : (accumulate s ds).2.2 = []) :
    (accumulate s ds).1 = Nat.ofDigitChars 10 ds s := by
  induction ds generalizing s with
  | nil => rw [accumulate, Nat.ofDigitChars_nil]
  | cons d ds ih =>
    rw [accumulate] at h ⊢
    split at h
    · exact absurd h (List.cons_ne_nil d ds)
    · rename_i hle
      rw [if_neg hle, Nat.ofDigitChars_cons, Nat.mul_comm 10 s]
      exact ih h

/-- Digits of a number within the limit are accumulated without a rest. -/
theorem accumulate_of_le {ds : List Char} {s : Nat}
    (h : Nat.ofDigitChars 10 ds s ≤ significandLimit) :
    accumulate s ds = (Nat.ofDigitChars 10 ds s, ds.length, []) := by
  induction ds generalizing s with
  | nil => rw [accumulate, Nat.ofDigitChars_nil, List.length_nil]
  | cons d ds ih =>
    rw [Nat.ofDigitChars_cons, Nat.mul_comm 10 s] at h
    have hnext : s * 10 + digitValue d ≤ significandLimit := by
      refine Nat.le_trans ?_ h
      rw [Nat.ofDigitChars_eq_ofDigitChars_zero]
      have hpow : 1 ≤ 10 ^ ds.length := Nat.one_le_pow _ _ (by decide)
      have hmul := Nat.le_mul_of_pos_left (s * 10 + (d.toNat - '0'.toNat)) hpow
      exact Nat.le_trans hmul (Nat.le_add_right _ _)
    have hrest : accumulate (s * 10 + digitValue d) ds =
        (Nat.ofDigitChars 10 ds (s * 10 + digitValue d), ds.length, []) := ih h
    rw [accumulate, if_neg (Nat.not_lt.2 hnext), hrest, Nat.ofDigitChars_cons,
      Nat.mul_comm 10 s]
    rfl

/-- A text with which the number before it does not go on. -/
def EndsNumber (rest : List Char) : Prop :=
  (∀ c ∈ rest.head?, c.isDigit = false) ∧ continuesNumber rest = false

theorem endsNumber_nil : EndsNumber [] :=
  ⟨nofun, rfl⟩

theorem digits_toDigits_append (n : Nat) {rest : List Char} (h : EndsNumber rest) :
    digits (Nat.toDigits 10 n ++ rest) = (Nat.toDigits 10 n, rest) := by
  have hdigit : ∀ c ∈ Nat.toDigits 10 n, c.isDigit = true := fun _ hc => isDigit_of_mem_toDigits hc
  have hnone : rest.takeWhile Char.isDigit = [] ∧ rest.dropWhile Char.isDigit = rest := by
    cases rest with
    | nil => exact ⟨rfl, rfl⟩
    | cons c cs =>
      have hc : c.isDigit = false := h.1 c rfl
      simp [hc]
  rw [digits, List.takeWhile_append_of_pos hdigit, List.dropWhile_append_of_pos hdigit, hnone.1,
    hnone.2, List.append_nil]

theorem unsignedNumber_toDigits_append (negative : Bool) {n : Nat} (hn : n ≤ significandLimit)
    (hneg : negative = true → n ≠ 0 ∧ n ≤ twoTo 63) {rest : List Char} (h : EndsNumber rest) :
    unsignedNumber negative (Nat.toDigits 10 n ++ rest) =
      some (.int (if negative then -n else n), rest) := by
  have hlimit : Nat.ofDigitChars 10 (Nat.toDigits 10 n) 0 ≤ significandLimit := by
    rwa [Nat.ofDigitChars_ten_toDigits]
  rw [unsignedNumber, digits_toDigits_append n h]
  simp only
  split
  · rename_i h
    exact absurd h Nat.toDigits_ne_nil
  · rename_i c cs h
    exact absurd h (toDigits_ne_zero_cons_cons n c cs)
  · rw [accumulate_of_le hlimit, Nat.ofDigitChars_ten_toDigits, h.2]
    cases negative with
    | false => rfl
    | true => simp [(hneg rfl).1, (hneg rfl).2]

def NoInteger (read : Option (Json.Number × List Char)) : Prop :=
  ∀ m rest, read ≠ some (.int m, rest)

theorem noInteger_none : NoInteger none :=
  fun _ _ h => nomatch h

theorem noInteger_float (x : Binary64) (rest : List Char) : NoInteger (some (.float x, rest)) :=
  fun _ _ h => nomatch h

theorem noInteger_floatNumber (negative : Bool) (significand : Nat) (exponent : Int)
    (rest : List Char) :
    NoInteger (do some (← floatNumber negative significand exponent, rest)) := by
  intro m rest' h
  rw [floatNumber, Option.bind_eq_bind, Option.bind_eq_bind, Option.bind_eq_some_iff] at h
  obtain ⟨x, hx, h⟩ := h
  rw [Option.bind_eq_some_iff] at hx
  obtain ⟨y, -, hy⟩ := hx
  rw [← Option.some.inj hy] at h
  exact nomatch h

theorem noInteger_exponentPart (negative : Bool) (significand : Nat) (exponent : Int)
    (cs : List Char) : NoInteger (exponentPart negative significand exponent cs) := by
  rw [exponentPart.eq_def]
  simp only
  repeat' split
  all_goals simp only [noInteger_none, noInteger_float, noInteger_floatNumber]

/-- A number with a fraction or an exponent is a float. -/
theorem noInteger_fractionPart (negative : Bool) (significand : Nat) (exponent : Int)
    (cs : List Char) : NoInteger (fractionPart negative significand exponent cs) := by
  rw [fractionPart.eq_def]
  simp only
  repeat' split
  all_goals simp only [noInteger_none, noInteger_exponentPart, noInteger_floatNumber]

/-- What is read as an integer without a rest are the digits of that integer
after its sign. -/
theorem eq_toDigits_of_unsignedNumber {negative : Bool} {cs : List Char} {m : Int}
    (h : unsignedNumber negative cs = some (.int m, [])) :
    ∃ n : Nat, cs = Nat.toDigits 10 n ∧ m = (if negative then -(n : Int) else n) ∧
      (negative = true → n ≠ 0) := by
  have hcs : (digits cs).1 ++ (digits cs).2 = cs := List.takeWhile_append_dropWhile
  have hdigits : ∀ c ∈ (digits cs).1, c.isDigit = true := fun c hc => List.mem_takeWhile_imp hc
  rw [unsignedNumber] at h
  generalize digits cs = parts at h hcs hdigits
  obtain ⟨ds, rest⟩ := parts
  simp only at h hcs hdigits
  split at h
  · exact nomatch h
  · exact nomatch h
  · rename_i hnil hlead
    cases ds with
    | nil => exact absurd rfl hnil
    | cons d ds =>
      have hzero : d = '0' → ds = [] := by
        intro hd
        cases ds with
        | nil => rfl
        | cons d' ds' => exact absurd (hd ▸ rfl) (hlead d' ds')
      have hds := toDigits_ofDigitChars_zero hdigits hzero
      split at h
      · rename_i hall
        have hall := (Bool.and_eq_true_iff.1 hall).1
        rw [accumulate_fst_of_nil (List.isEmpty_iff.1 hall)] at h
        have hsome : ∀ (j : Json.Number), some (j, rest) = some (.int m, []) →
            j = .int m ∧ cs = d :: ds := by
          intro j hj
          obtain ⟨hj, hrest⟩ := Prod.mk.inj (Option.some.inj hj)
          exact ⟨hj, by rw [← hcs, hrest, List.append_nil]⟩
        cases negative with
        | false =>
          obtain ⟨hint, hcs⟩ := hsome _ h
          exact ⟨_, hcs.trans hds.symm, (Json.Number.int.inj hint).symm, fun h => nomatch h⟩
        | true =>
          simp only [Bool.not_true, Bool.false_eq_true, if_false] at h
          split at h
          · exact absurd h (noInteger_float _ _ _ _)
          · rename_i hpos
            split at h
            · obtain ⟨hint, hcs⟩ := hsome _ h
              exact ⟨_, hcs.trans hds.symm, (Json.Number.int.inj hint).symm, fun _ => hpos⟩
            · exact absurd h (noInteger_floatNumber _ _ _ _ _ _)
      · exact absurd h (noInteger_fractionPart _ _ _ _ m [])

/-- The characters of an integer of 64 bits, signed or unsigned, are read as that integer. -/
theorem number_toString_append {n : Int} (hmin : -(twoTo 63 : Int) ≤ n)
    (hmax : n ≤ (significandLimit : Int)) {rest : List Char} (h : EndsNumber rest) :
    number ((toString n).toList ++ rest) = some (.int n, rest) := by
  have hlimit : (twoTo 63 : Int) ≤ significandLimit := by decide
  rw [toList_toString_int]
  split
  · rename_i hn
    have hread := unsignedNumber_toDigits_append false (n := n.toNat) (by omega)
      (fun h => nomatch h) h
    rw [number.eq_def]
    split
    · rename_i cs hcs
      cases hdigits : Nat.toDigits 10 n.toNat with
      | nil => exact absurd hdigits Nat.toDigits_ne_nil
      | cons d ds =>
        rw [hdigits, List.cons_append, List.cons.injEq] at hcs
        exact absurd (hcs.1 ▸ hdigits) (toDigits_ne_sign_cons rfl _ ds)
    · rw [hread, if_neg Bool.false_ne_true, Int.toNat_of_nonneg hn]
  · rename_i hn
    have hread := unsignedNumber_toDigits_append true (n := (-n).toNat) (by omega)
      (fun _ => ⟨by omega, by omega⟩) h
    rw [List.cons_append, number, hread, if_pos rfl, Int.toNat_of_nonneg (by omega), Int.neg_neg]

theorem toInt_bounds (n : Int32) :
    -(twoTo 63 : Int) ≤ n.toInt ∧ n.toInt ≤ (significandLimit : Int) := by
  have hmin := n.minValue_le_toInt
  have hmax := n.toInt_le
  rw [Int32.toInt_minValue] at hmin
  rw [Int32.toInt_maxValue] at hmax
  have hbelow : (2 : Int) ^ 31 ≤ twoTo 63 := by decide
  have habove : (2 : Int) ^ 31 ≤ significandLimit := by decide
  omega

theorem number_writeInt32 (n : Int32) :
    number (writeInt32 n).toList = some (.int n.toInt, []) := by
  obtain ⟨hmin, hmax⟩ := toInt_bounds n
  have hread := number_toString_append hmin hmax endsNumber_nil
  rwa [List.append_nil] at hread

/-- Characters that are read as an integer of 32 bits, without a rest, are the
characters of that integer. -/
theorem eq_writeInt32_of_number {cs : List Char} {n : Int32}
    (h : number cs = some (.int n.toInt, [])) : cs = (writeInt32 n).toList := by
  rw [toList_writeInt32]
  rw [number.eq_def] at h
  split at h
  · obtain ⟨k, hcs, hint, hpos⟩ := eq_toDigits_of_unsignedNumber h
    have hk : k ≠ 0 := hpos rfl
    rw [if_pos rfl] at hint
    rw [if_neg (by omega), hcs, hint]
    simp
  · obtain ⟨k, hcs, hint, -⟩ := eq_toDigits_of_unsignedNumber h
    rw [if_neg Bool.false_ne_true] at hint
    rw [if_pos (by omega), hcs, hint]
    simp

end Keys

theorem head_toString_int {n : Int} {c : Char} {cs : List Char}
    (h : (toString n).toList = c :: cs) : (c.isDigit || c == '-') = true := by
  rw [toList_toString_int] at h
  split at h
  · rw [isDigit_of_mem_toDigits (by rw [h]; exact List.mem_cons_self), Bool.true_or]
  · rw [← (List.cons.inj h).1]
    rfl

theorem head_writeInt32 {n : Int32} {c : Char} {cs : List Char}
    (h : (writeInt32 n).toList = c :: cs) : (c.isDigit || c == '-') = true :=
  head_toString_int h

/-- Exactly the written form of an integer is read as a key. -/
theorem decodeInt32Key_eq_ok_iff {key : String} {n : Int32} :
    Scalar.decodeInt32Key key = .ok n ↔ key = writeInt32 n := by
  rw [← String.toList_inj, Scalar.decodeInt32Key]
  constructor
  · intro h
    split at h
    · exact nomatch h
    · rename_i c cs hcs
      split at h
      · split at h
        · rename_i m rest hnumber
          split at h
          · rename_i value hvalue
            split at h
            · rename_i hrest
              obtain rfl : value = n := Except.ok.inj h
              rw [List.isEmpty_iff.1 hrest, ← toInt_of_int32OfInt? hvalue] at hnumber
              rw [hcs]
              exact eq_writeInt32_of_number hnumber
            · exact nomatch h
          · exact nomatch h
        · exact nomatch h
      · exact nomatch h
  · intro h
    have hnumber := number_writeInt32 n
    rw [h]
    cases hlist : (writeInt32 n).toList with
    | nil =>
      rw [hlist] at hnumber
      exact nomatch hnumber
    | cons c cs =>
      rw [hlist] at hnumber
      simp [head_writeInt32 hlist, hnumber, int32OfInt?_toInt]

end LayeredConfig
