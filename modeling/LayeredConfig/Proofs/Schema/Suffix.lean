import LayeredConfig.Proofs.Schema.Spelling

/-!
# Suffixes of camel case forms

The suffix of a variable can be made from a name and from the camel case form of the name.
The form has no underscores: a capital marks where one was, so an underscore that no letter
follows is lost.  On the way back a capital is a mark where a small letter or a digit stands
in front of it.  What comes back is the suffix of the name without the underscores that are
lost (`envSuffixAfter_camelAfter`).

So the suffix of the form has all letters and digits of the suffix of the name, and it is the
same where nothing is lost.  It cannot be the same for all names, however a form is read:
every name shares its form with a name of another suffix (`suffix_of_lowerCamel`).
-/

namespace LayeredConfig.Name

/-! ## What comes back -/

/-- The name without the underscores that its camel case form does not give back.  `low` tells
whether a small letter or a digit came last in the form, `raised` whether an underscore did in
the name. -/
def returned : (low raised : Bool) → List Char → List Char
  | _, _, [] => []
  | low, raised, c :: cs =>
    if c = '_' then returned low true cs
    else if raised && c.isLower then
      (if low then ['_', c] else [c]) ++ returned false false cs
    else c :: returned (c.isLower || c.isDigit) false cs

@[simp] theorem returned_nil (low raised : Bool) : returned low raised [] = [] := rfl

@[simp] theorem returned_underscore (low raised : Bool) (cs : List Char) :
    returned low raised ('_' :: cs) = returned low true cs := rfl

theorem returned_raised {c : Char} (hc : c.isLower = true) (low : Bool) (cs : List Char) :
    returned low true (c :: cs) = (if low then ['_', c] else [c]) ++ returned false false cs := by
  have hne : c ≠ '_' := by
    rintro rfl
    exact absurd hc (by decide)
  simp [returned, hne, hc]

theorem returned_cons {c : Char} (hc : c ≠ '_') {raised : Bool}
    (h : raised = true → ¬ c.isLower) (low : Bool) (cs : List Char) :
    returned low raised (c :: cs) = c :: returned (c.isLower || c.isDigit) false cs := by
  cases raised with
  | false => simp [returned, hc]
  | true => simp [returned, hc, h rfl]

/-- The suffix of the camel case form is made of what the form gives back. -/
theorem envSuffixAfter_camelAfter {name : List Char} (h : Small name) (previous : Option Char)
    (raised : Bool) :
    envSuffixAfter previous (camelAfter raised name) =
      (returned (previous.any fun p => p.isLower || p.isDigit) raised name).map Char.toUpper := by
  induction name generalizing previous raised with
  | nil => rfl
  | cons c cs ih =>
    obtain ⟨hc, hcs⟩ := small_cons_iff.1 h
    by_cases hunderscore : c = '_'
    · subst hunderscore
      exact ih hcs previous true
    · rw [camelAfter_cons hunderscore]
      by_cases hmark : raised = true ∧ c.isLower = true
      · obtain ⟨rfl, hlower⟩ := hmark
        have hupper : c.toUpper.isUpper = true := by simp [Char.isAlpha, hlower]
        have hdigit : c.toUpper.isDigit = false :=
          Bool.eq_false_iff.2 fun hd => not_isUpper_of_isDigit hd hupper
        have hagain : c.toUpper.toUpper = c.toUpper :=
          Char.toUpper_eq_of_not_isLower (by simp)
        rw [returned_raised hlower, if_pos rfl, envSuffixAfter, ih hcs]
        cases previous.any fun p => p.isLower || p.isDigit <;> simp [hupper, hdigit, hagain]
      · have hsame : (if raised then c.toUpper else c) = c := by
          cases raised with
          | false => rfl
          | true => exact Char.toUpper_eq_of_not_isLower fun hlower => hmark ⟨rfl, hlower⟩
        rw [hsame, returned_cons hunderscore fun hr hlower => hmark ⟨hr, hlower⟩, envSuffixAfter,
          ih hcs]
        simp [hc]

/-- Only underscores are lost, -/
theorem returned_sublist (low raised : Bool) (name : List Char) :
    (returned low raised name).Sublist (if raised then '_' :: name else name) := by
  induction name generalizing low raised with
  | nil => exact List.nil_sublist _
  | cons c cs ih =>
    by_cases hunderscore : c = '_'
    · subst hunderscore
      have hrest := ih low true
      cases raised with
      | false => exact hrest
      | true => exact hrest.cons _
    · by_cases hmark : raised = true ∧ c.isLower = true
      · obtain ⟨rfl, hlower⟩ := hmark
        have hrest := ih false false
        rw [returned_raised hlower]
        cases low with
        | false => exact (hrest.cons_cons c).cons _
        | true => exact (hrest.cons_cons c).cons_cons _
      · rw [returned_cons hunderscore fun hr hlower => hmark ⟨hr, hlower⟩]
        have hrest := (ih (c.isLower || c.isDigit) false).cons_cons c
        cases raised with
        | false => exact hrest
        | true => exact hrest.cons _

/-- and nothing else is. -/
theorem filter_returned (low raised : Bool) (name : List Char) :
    (returned low raised name).filter (· ≠ '_') = name.filter (· ≠ '_') := by
  induction name generalizing low raised with
  | nil => rfl
  | cons c cs ih =>
    by_cases hunderscore : c = '_'
    · subst hunderscore
      simpa using ih low true
    · by_cases hmark : raised = true ∧ c.isLower = true
      · obtain ⟨rfl, hlower⟩ := hmark
        rw [returned_raised hlower]
        cases low <;> simpa [hunderscore] using ih false false
      · rw [returned_cons hunderscore fun hr hlower => hmark ⟨hr, hlower⟩]
        simpa [hunderscore] using ih _ false

/-! ## Names of which nothing is lost -/

/-- Each underscore has a letter after it. -/
def LettersFollow (name : List Char) : Prop :=
  ∀ rest, '_' :: rest <:+ name → rest.head?.any Char.isLower = true

/-- No two underscores have a single character between them. -/
def Apart (name : List Char) : Prop := ∀ rest, '_' :: rest <:+ name → rest[1]? ≠ some '_'

section

variable {c : Char} {cs : List Char}

theorem forall_underscore_nil (P : List Char → Prop) : ∀ rest, '_' :: rest <:+ [] → P rest :=
  fun _ h => absurd (List.suffix_nil.1 h) (List.cons_ne_nil _ _)

theorem forall_underscore_cons_iff {P : List Char → Prop} :
    (∀ rest, '_' :: rest <:+ c :: cs → P rest) ↔
      (c = '_' → P cs) ∧ ∀ rest, '_' :: rest <:+ cs → P rest := by
  simp only [List.suffix_cons_iff, List.cons.injEq]
  constructor
  · exact fun h => ⟨fun hc => h cs (Or.inl ⟨hc.symm, rfl⟩), fun rest hrest => h rest (Or.inr hrest)⟩
  · rintro ⟨hc, hcs⟩ rest (⟨rfl, rfl⟩ | hrest)
    · exact hc rfl
    · exact hcs rest hrest

theorem lettersFollow_cons_iff : LettersFollow (c :: cs) ↔
    (c = '_' → cs.head?.any Char.isLower = true) ∧ LettersFollow cs := forall_underscore_cons_iff

theorem apart_cons_iff : Apart (c :: cs) ↔ (c = '_' → cs[1]? ≠ some '_') ∧ Apart cs :=
  forall_underscore_cons_iff

end

instance instDecidableLettersFollow : (name : List Char) → Decidable (LettersFollow name)
  | [] => isTrue (forall_underscore_nil _)
  | _ :: cs =>
    have := instDecidableLettersFollow cs
    decidable_of_iff _ lettersFollow_cons_iff.symm

instance instDecidableApart : (name : List Char) → Decidable (Apart name)
  | [] => isTrue (forall_underscore_nil _)
  | _ :: cs =>
    have := instDecidableApart cs
    decidable_of_iff _ apart_cons_iff.symm

theorem lettersFollow_returned (low raised : Bool) (name : List Char) :
    LettersFollow (returned low raised name) := by
  induction name generalizing low raised with
  | nil => exact forall_underscore_nil _
  | cons c cs ih =>
    by_cases hunderscore : c = '_'
    · subst hunderscore
      exact ih low true
    · have hcons : ∀ {low raised}, LettersFollow (c :: returned low raised cs) :=
        lettersFollow_cons_iff.2 ⟨fun hc => absurd hc hunderscore, ih _ _⟩
      by_cases hmark : raised = true ∧ c.isLower = true
      · obtain ⟨rfl, hlower⟩ := hmark
        rw [returned_raised hlower]
        cases low with
        | false => exact hcons
        | true => exact lettersFollow_cons_iff.2 ⟨fun _ => hlower, hcons⟩
      · rw [returned_cons hunderscore fun hr hlower => hmark ⟨hr, hlower⟩]
        exact hcons

theorem returned_of_head?_ne {name : List Char} (h : name.head? ≠ some '_') (low : Bool) :
    returned low false name = returned true false name := by
  cases name with
  | nil => rfl
  | cons c cs =>
    have hc : c ≠ '_' := by simpa using h
    rw [returned_cons hc (by simp), returned_cons hc (by simp)]

/-- Nothing is lost of a name whose underscores stand in front of letters and apart from each
other. -/
theorem returned_eq_self {name : List Char} (hletters : LettersFollow name) (hapart : Apart name)
    (hchars : ∀ c ∈ name, c.isLower ∨ c.isDigit ∨ c = '_') : returned true false name = name := by
  induction name with
  | nil => rfl
  | cons c cs ih =>
    obtain ⟨hletter, hletters⟩ := lettersFollow_cons_iff.1 hletters
    obtain ⟨hsecond, hapart⟩ := apart_cons_iff.1 hapart
    obtain ⟨hchar, hchars⟩ := List.forall_mem_cons.1 hchars
    have hrest := ih hletters hapart hchars
    by_cases hunderscore : c = '_'
    · subst hunderscore
      cases cs with
      | nil => exact absurd (hletter rfl) (by decide)
      | cons d ds =>
        have hd : d.isLower = true := hletter rfl
        have hne : d ≠ '_' := by
          rintro rfl
          exact absurd hd (by decide)
        -- the form has a capital for `d`, which would hide an underscore after it
        have hhead : ds.head? ≠ some '_' := by simpa [List.head?_eq_getElem?] using hsecond rfl
        rw [returned_cons hne (by simp), hd, Bool.true_or] at hrest
        rw [returned_underscore, returned_raised hd, returned_of_head?_ne hhead,
          List.tail_eq_of_cons_eq hrest]
        rfl
    · have hplain : (c.isLower || c.isDigit) = true := by simpa [hunderscore] using hchar
      rw [returned_cons hunderscore (by simp), hplain, hrest]

/-! ## Suffixes of names -/

theorem toEnvSuffix_eq {name : String} (h : isFieldName name = true) :
    toEnvSuffix name = String.ofList (name.toList.map Char.toUpper) := by
  rw [toEnvSuffix, envSuffix_of_small (small_of_isFieldName h)]

theorem toEnvSuffix_toLowerCamel {name : String} (h : isFieldName name = true) :
    toEnvSuffix (toLowerCamel name) =
      String.ofList ((returned false false name.toList).map Char.toUpper) := by
  rw [toEnvSuffix, toLowerCamel, String.toList_ofList, lowerCamel_of_isFieldName h, envSuffix,
    envSuffixAfter_camelAfter (small_of_isFieldName h)]
  rfl

/-- The suffix is made of what comes back, and tells it. -/
theorem toEnvSuffix_toLowerCamel_eq_iff {name : String} (h : isFieldName name = true) :
    toEnvSuffix (toLowerCamel name) = toEnvSuffix name ↔
      returned false false name.toList = name.toList := by
  have hsmall := small_of_isFieldName h
  have hreturned : Small (returned false false name.toList) :=
    fun c hc => hsmall c ((returned_sublist false false name.toList).subset hc)
  rw [toEnvSuffix_toLowerCamel h, toEnvSuffix_eq h, String.ofList_inj,
    map_toUpper_inj hreturned hsmall]

theorem filter_map_toUpper (cs : List Char) :
    (cs.map Char.toUpper).filter (· ≠ '_') = (cs.filter (· ≠ '_')).map Char.toUpper := by
  rw [List.filter_map]
  refine congrArg (List.map Char.toUpper) (List.filter_congr fun c _ => ?_)
  by_cases hc : c = '_'
  · subst hc
    rfl
  · simp [hc, toUpper_ne_underscore hc]

theorem lowerCamel_underscore {name : String} (h : isFieldName name = true) :
    isFieldName (name ++ "_") = true ∧ toLowerCamel (name ++ "_") = toLowerCamel name := by
  obtain ⟨c, cs, hname, hfirst, hrest⟩ := chars_of_isFieldName h
  have htoList : (name ++ "_").toList = name.toList ++ ['_'] := String.toList_append
  have hlast : ∀ word ∈ placeWords, word.toList.getLast? ≠ some '_' := by decide
  have hplace : name ++ "_" ∉ placeWords := fun hmem => hlast _ hmem (by simp [htoList])
  have hvalid : isFieldName (name ++ "_") = true := by
    rw [isFieldName, Bool.and_eq_true, hasShape_iff]
    refine ⟨⟨c, cs ++ ['_'], by rw [htoList, hname]; rfl, hfirst, fun d hd => ?_⟩, ?_⟩
    · rcases List.mem_append.1 hd with hd | hd
      · simpa [or_assoc] using hrest d hd
      · simp [List.mem_singleton.1 hd]
    · simpa using hplace
  have hcamel : ∀ raised, camelAfter raised (name.toList ++ ['_']) = camelAfter raised name.toList := by
    generalize name.toList = cs
    induction cs with
    | nil => exact fun _ => rfl
    | cons c cs ih =>
      intro raised
      rw [List.cons_append, camelAfter, camelAfter, ih, ih]
  refine ⟨hvalid, ?_⟩
  rw [toLowerCamel, toLowerCamel, lowerCamel_of_isFieldName hvalid, lowerCamel_of_isFieldName h,
    htoList, hcamel]

/-- What the suffix of the camel case form of a name has to do with the suffix of the name. -/
structure SuffixOfForm (name : String) : Prop where
  /-- Characters may be missing, -/
  sublist : (toEnvSuffix (toLowerCamel name)).toList.Sublist (toEnvSuffix name).toList
  /-- but none that are no underscores. -/
  others : (toEnvSuffix (toLowerCamel name)).toList.filter (· ≠ '_') =
    (toEnvSuffix name).toList.filter (· ≠ '_')
  /-- None are missing at all if the underscores stand in front of letters and apart from each
  other. -/
  same : LettersFollow name.toList → Apart name.toList →
    toEnvSuffix (toLowerCamel name) = toEnvSuffix name
  /-- An underscore is missing if one does not stand in front of a letter. -/
  different : ¬ LettersFollow name.toList → toEnvSuffix (toLowerCamel name) ≠ toEnvSuffix name
  /-- Another field name has the same form and another suffix. -/
  shared : isFieldName (name ++ "_") = true ∧ toLowerCamel (name ++ "_") = toLowerCamel name ∧
    toEnvSuffix (name ++ "_") ≠ toEnvSuffix name

/-- The suffix of the camel case form of a field name is the suffix of the name but for
underscores, and it is the suffix of the name where the form tells of all underscores. -/
theorem suffix_of_lowerCamel {name : String} (h : isFieldName name = true) :
    SuffixOfForm name where
  sublist := by
    rw [toEnvSuffix_toLowerCamel h, toEnvSuffix_eq h, String.toList_ofList, String.toList_ofList]
    exact (returned_sublist false false name.toList).map Char.toUpper
  others := by
    rw [toEnvSuffix_toLowerCamel h, toEnvSuffix_eq h, String.toList_ofList, String.toList_ofList,
      filter_map_toUpper, filter_map_toUpper, filter_returned]
  same := by
    intro hletters hapart
    obtain ⟨c, cs, hname, hfirst, hrest⟩ := chars_of_isFieldName h
    have hchars : ∀ d ∈ name.toList, d.isLower ∨ d.isDigit ∨ d = '_' := by
      rw [hname]
      exact List.forall_mem_cons.2 ⟨Or.inl hfirst, hrest⟩
    have hhead : name.toList.head? ≠ some '_' := by
      rw [hname]
      rintro ⟨⟩
      exact absurd hfirst (by decide)
    rw [toEnvSuffix_toLowerCamel_eq_iff h, returned_of_head?_ne hhead]
    exact returned_eq_self hletters hapart hchars
  different := by
    intro hletters heq
    rw [toEnvSuffix_toLowerCamel_eq_iff h] at heq
    exact hletters (heq ▸ lettersFollow_returned false false name.toList)
  shared := by
    obtain ⟨hvalid, hcamel⟩ := lowerCamel_underscore h
    refine ⟨hvalid, hcamel, fun heq => ?_⟩
    rw [toEnvSuffix_eq hvalid, toEnvSuffix_eq h, String.ofList_inj] at heq
    simpa using congrArg List.length heq

theorem suffix_of_lowerCamel_max2xx_body_size :
    isFieldName "max2xx_body_size" = true ∧ SuffixOfForm "max2xx_body_size" ∧
      toLowerCamel "max2xx_body_size" = "max2xxBodySize" ∧
      toEnvSuffix "max2xxBodySize" = "MAX2XX_BODY_SIZE" := by
  have hname : isFieldName "max2xx_body_size" = true := by decide
  have hform := suffix_of_lowerCamel hname
  exact ⟨hname, hform, by decide, (hform.same (by decide) (by decide)).trans (by decide)⟩

/-- The form of a name does not tell of an underscore in front of a digit, at the end, or in front
of another one. -/
theorem toEnvSuffix_lowerCamel_ne :
    (isFieldName "utf_8" = true ∧ toEnvSuffix "utf_8" = "UTF_8" ∧
      toEnvSuffix (toLowerCamel "utf_8") = "UTF8") ∧
    isFieldName "on__off_" = true ∧ toEnvSuffix "on__off_" = "ON__OFF_" ∧
      toEnvSuffix (toLowerCamel "on__off_") = "ON_OFF" := by
  decide

end LayeredConfig.Name
