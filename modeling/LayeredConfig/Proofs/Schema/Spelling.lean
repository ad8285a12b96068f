import Mathlib
import LayeredConfig.Schema.Name

/-!
# Spellings of names without capitals

Field names have no capitals, so their spellings can be compared.  The suffix
of a variable is the name in capitals, which is injective.  The camel case form
is not: it forgets underscores that no letter follows, and how many stand in
front of a letter.  `tidy` removes just these, and two names have one camel case
form exactly when they are equal after tidying (`toLowerCamel_eq_iff_tidy_eq`).
-/

namespace LayeredConfig.Name

open LayeredConfig.Text

def Small (name : List Char) : Prop := ∀ c ∈ name, ¬ c.isUpper

theorem small_cons_iff {c : Char} {cs : List Char} : Small (c :: cs) ↔ ¬ c.isUpper ∧ Small cs :=
  List.forall_mem_cons

theorem small_append_iff {cs more : List Char} : Small (cs ++ more) ↔ Small cs ∧ Small more :=
  List.forall_mem_append

theorem chars_of_isFieldName {name : String} (h : isFieldName name = true) :
    ∃ c cs, name.toList = c :: cs ∧ c.isLower ∧ ∀ d ∈ cs, d.isLower ∨ d.isDigit ∨ d = '_' := by
  rw [isFieldName, Bool.and_eq_true, hasShape_iff] at h
  obtain ⟨⟨c, cs, hname, hfirst, hrest⟩, -⟩ := h
  exact ⟨c, cs, hname, hfirst, fun d hd => by simpa [or_assoc] using hrest d hd⟩

theorem not_mem_of_isFieldName {name : String} (h : isFieldName name = true) {c : Char}
    (hlower : c.isLower = false) (hdigit : c.isDigit = false) (hne : c ≠ '_') :
    c ∉ name.toList := by
  obtain ⟨first, cs, hname, hfirst, hrest⟩ := chars_of_isFieldName h
  rw [hname, List.mem_cons, not_or]
  refine ⟨fun heq => ?_, fun hmem => ?_⟩
  · subst heq
    exact Bool.false_ne_true (hlower.symm.trans hfirst)
  · rcases hrest c hmem with hc | hc | hc
    · exact Bool.false_ne_true (hlower.symm.trans hc)
    · exact Bool.false_ne_true (hdigit.symm.trans hc)
    · exact hne hc

theorem not_isUpper_of_isDigit {c : Char} (h : c.isDigit) : ¬ c.isUpper := by
  simp only [Char.isDigit, Char.isUpper, Bool.and_eq_true, decide_eq_true_eq,
    UInt32.le_iff_toNat_le] at h ⊢
  grind

theorem exists_cons_of_isFieldName {name : String} (h : isFieldName name = true) :
    ∃ c cs, name.toList = c :: cs ∧ c.isLower ∧ Small cs := by
  obtain ⟨c, cs, hname, hfirst, hrest⟩ := chars_of_isFieldName h
  refine ⟨c, cs, hname, hfirst, fun d hd => ?_⟩
  rcases hrest d hd with hlower | hdigit | rfl
  · exact Char.not_isUpper_of_isLower hlower
  · exact not_isUpper_of_isDigit hdigit
  · decide

theorem small_of_isFieldName {name : String} (h : isFieldName name = true) :
    Small name.toList := by
  obtain ⟨c, cs, hname, hfirst, hrest⟩ := exists_cons_of_isFieldName h
  rw [hname, small_cons_iff]
  exact ⟨Char.not_isUpper_of_isLower hfirst, hrest⟩

/-! ## The suffix of a variable -/

theorem envSuffixAfter_of_small {name : List Char} (h : Small name) (previous : Option Char) :
    envSuffixAfter previous name = name.map Char.toUpper := by
  induction name generalizing previous with
  | nil => rfl
  | cons c cs ih =>
    obtain ⟨hc, hcs⟩ := small_cons_iff.1 h
    rw [envSuffixAfter, ih hcs]
    simp [hc]

/-- Without capitals there is nowhere to put an underscore. -/
theorem envSuffix_of_small {name : List Char} (h : Small name) :
    envSuffix name = name.map Char.toUpper :=
  envSuffixAfter_of_small h none

theorem map_toLower_map_toUpper {name : List Char} (h : Small name) :
    (name.map Char.toUpper).map Char.toLower = name := by
  rw [List.map_map]
  refine (List.map_congr_left fun c hc => ?_).trans (List.map_id _)
  rw [Function.comp_apply, Char.toLower_toUpper_eq_toLower,
    Char.toLower_eq_of_not_isUpper (h c hc), id]

/-- Capitals do not merge names that have none. -/
theorem map_toUpper_inj {name other : List Char} (h : Small name) (h' : Small other) :
    name.map Char.toUpper = other.map Char.toUpper ↔ name = other := by
  refine ⟨fun heq => ?_, congrArg _⟩
  rw [← map_toLower_map_toUpper h, heq, map_toLower_map_toUpper h']

/-! ## The camel case form -/

/-- The camel case form of what follows in a name; `raised` tells whether an
underscore came last. -/
def camelAfter : (raised : Bool) → List Char → List Char
  | _, [] => []
  | raised, c :: cs =>
    if c = '_' then camelAfter true cs
    else (if raised then c.toUpper else c) :: camelAfter false cs

@[simp] theorem camelAfter_underscore (raised : Bool) (cs : List Char) :
    camelAfter raised ('_' :: cs) = camelAfter true cs := rfl

theorem camelAfter_cons {c : Char} (h : c ≠ '_') (raised : Bool) (cs : List Char) :
    camelAfter raised (c :: cs) = (if raised then c.toUpper else c) :: camelAfter false cs := by
  rw [camelAfter, if_neg h]

/-- The pieces between underscores give the camel case form from either state. -/
theorem camelAfter_eq {name piece : List Char} {pieces : List (List Char)}
    (h : split '_' name = piece :: pieces) :
    camelAfter false name =
        piece ++ (pieces.filter fun s => !s.isEmpty).flatMap capitalize ∧
      camelAfter true name =
        ((piece :: pieces).filter fun s => !s.isEmpty).flatMap capitalize := by
  induction name generalizing piece pieces with
  | nil =>
    obtain ⟨rfl, rfl⟩ := List.cons.inj h
    exact ⟨rfl, rfl⟩
  | cons c cs ih =>
    obtain ⟨next, rest, hsplit⟩ := List.exists_cons_of_ne_nil (split_ne_nil '_' cs)
    obtain ⟨hlow, hhigh⟩ := ih hsplit
    rw [split, hsplit] at h
    by_cases hc : c = '_'
    · subst hc
      obtain ⟨rfl, rfl⟩ := List.cons.inj h
      rw [camelAfter_underscore, camelAfter_underscore, hhigh]
      exact ⟨rfl, rfl⟩
    · rw [if_neg hc] at h
      obtain ⟨rfl, rfl⟩ := List.cons.inj h
      rw [camelAfter_cons hc, camelAfter_cons hc, hlow]
      exact ⟨rfl, rfl⟩

theorem toUpper_ne_underscore {c : Char} (h : c ≠ '_') : c.toUpper ≠ '_' := by
  by_cases hlower : c.isLower = true
  · intro heq
    have hupper : c.toUpper.isUpper = true := by simp [Char.isAlpha, hlower]
    exact absurd (heq ▸ hupper) (by decide)
  · rwa [Char.toUpper_eq_of_not_isLower hlower]

theorem underscore_not_mem_camelAfter (raised : Bool) (name : List Char) :
    '_' ∉ camelAfter raised name := by
  induction name generalizing raised with
  | nil => exact List.not_mem_nil
  | cons c cs ih =>
    by_cases hc : c = '_'
    · subst hc
      exact ih true
    · rw [camelAfter_cons hc, List.mem_cons, not_or]
      refine ⟨fun heq => ?_, ih false⟩
      cases raised with
      | false => exact hc heq.symm
      | true => exact toUpper_ne_underscore hc heq.symm

theorem camelAfter_eq_self {name : List Char} (h : '_' ∉ name) : camelAfter false name = name := by
  induction name with
  | nil => rfl
  | cons c cs ih =>
    rw [List.mem_cons, not_or] at h
    rw [camelAfter_cons (Ne.symm h.1), ih h.2]
    rfl

theorem lowerCamel_eq_camelAfter {c : Char} (hc : c ≠ '_') (cs : List Char) :
    lowerCamel (c :: cs) = camelAfter false (c :: cs) := by
  obtain ⟨next, rest, hsplit⟩ := List.exists_cons_of_ne_nil (split_ne_nil '_' cs)
  have hname : split '_' (c :: cs) = (c :: next) :: rest := by
    rw [split, if_neg hc, hsplit]
  rw [(camelAfter_eq hname).1, lowerCamel, segments, hname]
  rfl

/-- The name with one underscore in front of each letter that had some, and no
other underscores. -/
def tidy : List Char → List Char
  | [] => []
  | c :: cs =>
    if c = '_' then
      match tidy cs with
      | [] => []
      | d :: ds => if d.isLower then '_' :: d :: ds else d :: ds
    else c :: tidy cs

theorem tidy_cons {c : Char} (h : c ≠ '_') (cs : List Char) : tidy (c :: cs) = c :: tidy cs := by
  rw [tidy, if_neg h]

theorem tidy_underscore_of_isLower {cs ds : List Char} {d : Char} (h : tidy cs = d :: ds)
    (hd : d.isLower = true) : tidy ('_' :: cs) = '_' :: tidy cs := by
  simp [tidy, h, hd]

theorem tidy_underscore_of_not_isLower {cs : List Char}
    (h : ∀ d ds, tidy cs = d :: ds → ¬ d.isLower) : tidy ('_' :: cs) = tidy cs := by
  rw [tidy, if_pos rfl]
  cases hcs : tidy cs with
  | nil => rfl
  | cons d ds => exact if_neg (h d ds hcs)

/-- An underscore that no letter follows makes no difference, another one no more than the
first. -/
theorem tidy_underscore_cases (cs : List Char) :
    (∃ d ds, tidy cs = d :: ds ∧ d.isLower ∧ tidy ('_' :: cs) = '_' :: tidy cs) ∨
      (∀ d ds, tidy cs = d :: ds → ¬ d.isLower) ∧ tidy ('_' :: cs) = tidy cs := by
  by_cases h : ∃ d ds, tidy cs = d :: ds ∧ d.isLower
  · obtain ⟨d, ds, hcs, hd⟩ := h
    exact Or.inl ⟨d, ds, hcs, hd, tidy_underscore_of_isLower hcs hd⟩
  · have hnone : ∀ d ds, tidy cs = d :: ds → ¬ d.isLower :=
      fun d ds hcs hd => h ⟨d, ds, hcs, hd⟩
    exact Or.inr ⟨hnone, tidy_underscore_of_not_isLower hnone⟩

theorem tidy_underscore_underscore (cs : List Char) :
    tidy ('_' :: '_' :: cs) = tidy ('_' :: cs) := by
  refine tidy_underscore_of_not_isLower fun d ds hd => ?_
  rcases tidy_underscore_cases cs with ⟨e, es, -, -, heq⟩ | ⟨hnone, heq⟩
  · rw [heq] at hd
    obtain ⟨rfl, -⟩ := List.cons.inj hd
    decide
  · exact hnone d ds (heq ▸ hd)

/-- Undoes the camel case form: a capital stands for an underscore and a letter. -/
def uncamel (name : List Char) : List Char :=
  name.flatMap fun c => if c.isUpper then ['_', c.toLower] else [c]

theorem uncamel_cons (c : Char) (cs : List Char) :
    uncamel (c :: cs) = (if c.isUpper then ['_', c.toLower] else [c]) ++ uncamel cs :=
  List.flatMap_cons

/-- What is left of a name when its camel case form is undone. -/
theorem uncamel_camelAfter {name : List Char} (h : Small name) :
    uncamel (camelAfter false name) = tidy name ∧
      uncamel (camelAfter true name) = tidy ('_' :: name) := by
  induction name with
  | nil => exact ⟨rfl, rfl⟩
  | cons c cs ih =>
    obtain ⟨hc, hcs⟩ := small_cons_iff.1 h
    obtain ⟨hlow, hhigh⟩ := ih hcs
    by_cases hunderscore : c = '_'
    · subst hunderscore
      rw [tidy_underscore_underscore]
      exact ⟨hhigh, hhigh⟩
    · have htidy := tidy_cons hunderscore cs
      rw [camelAfter_cons hunderscore, camelAfter_cons hunderscore, uncamel_cons, uncamel_cons,
        hlow]
      refine ⟨by simp [hc, htidy], ?_⟩
      by_cases hlower : c.isLower = true
      · have hraised : c.toUpper.isUpper = true := by simp [Char.isAlpha, hlower]
        rw [tidy_underscore_of_isLower htidy hlower, htidy]
        simp [hraised, Char.toLower_eq_of_not_isUpper hc]
      · have hsame := Char.toUpper_eq_of_not_isLower hlower
        have hnone : ∀ d ds, tidy (c :: cs) = d :: ds → ¬ d.isLower := by
          intro d ds hd
          obtain ⟨rfl, -⟩ := List.cons.inj (htidy.symm.trans hd)
          exact hlower
        rw [tidy_underscore_of_not_isLower hnone, htidy]
        simp [hsame, hc]

theorem camelAfter_tidy (name : List Char) (raised : Bool) :
    camelAfter raised (tidy name) = camelAfter raised name := by
  induction name generalizing raised with
  | nil => rfl
  | cons c cs ih =>
    by_cases hunderscore : c = '_'
    · subst hunderscore
      rw [camelAfter_underscore, ← ih true]
      rcases tidy_underscore_cases cs with ⟨d, ds, hcs, hd, heq⟩ | ⟨hnone, heq⟩
      · rw [heq, camelAfter_underscore]
      · rw [heq]
        cases hcs : tidy cs with
        | nil => rfl
        | cons d ds =>
          -- what is no letter reads the same raised or not
          by_cases hd : d = '_'
          · subst hd
            rfl
          · have hsame := Char.toUpper_eq_of_not_isLower (hnone d ds hcs)
            rw [camelAfter_cons hd, camelAfter_cons hd, hsame, ite_self, ite_self]
    · rw [tidy_cons hunderscore, camelAfter_cons hunderscore, camelAfter_cons hunderscore, ih]

theorem lowerCamel_of_isFieldName {name : String} (h : isFieldName name = true) :
    lowerCamel name.toList = camelAfter false name.toList := by
  obtain ⟨c, cs, hname, hlower, -⟩ := exists_cons_of_isFieldName h
  rw [hname]
  refine lowerCamel_eq_camelAfter ?_ cs
  rintro rfl
  exact absurd hlower (by decide)

theorem toLowerCamel_toLowerCamel {name : String} (h : isFieldName name = true) :
    toLowerCamel (toLowerCamel name) = toLowerCamel name := by
  obtain ⟨c, cs, hname, hlower, -⟩ := exists_cons_of_isFieldName h
  have hc : c ≠ '_' := by
    rintro rfl
    exact absurd hlower (by decide)
  have hcamel : lowerCamel name.toList = c :: camelAfter false cs := by
    rw [lowerCamel_of_isFieldName h, hname, camelAfter_cons hc]
    rfl
  have hself := camelAfter_eq_self (underscore_not_mem_camelAfter false name.toList)
  rw [← lowerCamel_of_isFieldName h, hcamel] at hself
  rw [toLowerCamel, toLowerCamel, String.toList_ofList, hcamel, lowerCamel_eq_camelAfter hc, hself]

/-- Two names have one camel case form exactly when they are equal after
tidying. -/
theorem toLowerCamel_eq_iff_tidy_eq {name other : String} (h : isFieldName name = true)
    (h' : isFieldName other = true) :
    toLowerCamel name = toLowerCamel other ↔ tidy name.toList = tidy other.toList := by
  rw [toLowerCamel, toLowerCamel, String.ofList_inj, lowerCamel_of_isFieldName h,
    lowerCamel_of_isFieldName h']
  constructor
  · intro heq
    rw [← (uncamel_camelAfter (small_of_isFieldName h)).1, heq,
      (uncamel_camelAfter (small_of_isFieldName h')).1]
  · intro heq
    rw [← camelAfter_tidy, heq, camelAfter_tidy]

end LayeredConfig.Name
