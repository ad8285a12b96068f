import LayeredConfig.Proofs.Code.Declared
import LayeredConfig.Proofs.Text.Split

/-!
# Identifiers of generated code

What generated code declares should be identifiers of its language: words that
are no keywords, or keywords with a mark in front.  Names of types and of fields
are kept away from the keywords or marked.  The variants of enum values are not:
`Self` comes from the value `SELF`, and from nothing else but `SELF` with
underscores after it (`Name.toVariant_eq_self_iff`).  So the code of an accepted
schema has legal identifiers exactly when no enum has such a value
(`identifiers_legal_iff`).
-/

namespace LayeredConfig

/-! ## Variants -/

namespace Name

open Text

theorem chars_of_isEnumValueName {value : String} (h : isEnumValueName value = true) :
    ∃ c cs, value.toList = c :: cs ∧ c.isUpper ∧ ∀ d ∈ cs, d.isUpper ∨ d.isDigit ∨ d = '_' := by
  rw [isEnumValueName, hasShape_iff] at h
  obtain ⟨c, cs, hvalue, hfirst, hrest⟩ := h
  exact ⟨c, cs, hvalue, hfirst, fun d hd => by simpa [or_assoc] using hrest d hd⟩

theorem map_toUpper_map_toLower {text : List Char} (h : ∀ c ∈ text, ¬ c.isLower) :
    (text.map Char.toLower).map Char.toUpper = text := by
  rw [List.map_map]
  refine (List.map_congr_left fun c hc => ?_).trans (List.map_id _)
  rw [Function.comp_apply, Char.toUpper_toLower_eq_toUpper,
    Char.toUpper_eq_of_not_isLower (h c hc), id]

theorem mem_segments {name segment : List Char} (h : segment ∈ segments name) :
    segment ≠ [] ∧ '_' ∉ segment ∧ segment ⊆ name := by
  rw [segments, List.mem_filter] at h
  obtain ⟨hsplit, hne⟩ := h
  exact ⟨by rintro rfl; exact absurd hne (by decide), mem_split hsplit⟩

theorem segments_cons {c : Char} (hc : c ≠ '_') (cs : List Char) :
    ∃ piece pieces, split '_' (c :: cs) = (c :: piece) :: pieces ∧
      segments (c :: cs) = (c :: piece) :: pieces.filter fun s => !s.isEmpty := by
  obtain ⟨piece, pieces, hsplit⟩ := List.exists_cons_of_ne_nil (split_ne_nil '_' cs)
  have hname : split '_' (c :: cs) = (c :: piece) :: pieces := by
    rw [split, if_neg hc, hsplit]
  exact ⟨piece, pieces, hname, by rw [segments, hname]; rfl⟩

theorem publicSegment_cons (c : Char) (cs : List Char) :
    ∃ rest, publicSegment (c :: cs) = c.toUpper :: rest ∧
      (rest = cs ∨ rest = cs.map Char.toUpper) := by
  rw [publicSegment]
  split
  · exact ⟨_, rfl, Or.inr rfl⟩
  · exact ⟨_, rfl, Or.inl rfl⟩

theorem publicName_cons {c : Char} (hc : c ≠ '_') (cs : List Char) :
    ∃ rest, publicName (c :: cs) = c.toUpper :: rest := by
  obtain ⟨piece, pieces, -, hsegments⟩ := segments_cons hc cs
  obtain ⟨rest, hrest, -⟩ := publicSegment_cons c piece
  rw [publicName, hsegments, List.flatMap_cons, hrest]
  exact ⟨_, rfl⟩

theorem not_isLower_of_isDigit {c : Char} (h : c.isDigit) : ¬ c.isLower := by
  simp only [Char.isDigit, Char.isLower, Bool.and_eq_true, decide_eq_true_eq,
    UInt32.le_iff_toNat_le] at h ⊢
  grind

theorem isAlphanum_toUpper {c : Char} (h : c.isAlphanum) : c.toUpper.isAlphanum := by
  by_cases hlower : c.isLower = true
  · simp [Char.isAlphanum, Char.isAlpha, hlower]
  · rwa [Char.toUpper_eq_of_not_isLower hlower]

theorem isAlphanum_of_mem_publicName {name : List Char} (h : ∀ c ∈ name, c.isAlphanum ∨ c = '_')
    {d : Char} (hd : d ∈ publicName name) : d.isAlphanum := by
  obtain ⟨segment, hsegment, hd⟩ := List.mem_flatMap.1 hd
  obtain ⟨hne, hunderscore, hsub⟩ := mem_segments hsegment
  have halphanum : ∀ c ∈ segment, c.isAlphanum := fun c hc =>
    (h c (hsub hc)).resolve_right fun heq => hunderscore (heq ▸ hc)
  obtain ⟨c, cs, rfl⟩ := List.exists_cons_of_ne_nil hne
  obtain ⟨hc, hcs⟩ := List.forall_mem_cons.1 halphanum
  obtain ⟨rest, hrest, hform⟩ := publicSegment_cons c cs
  rw [hrest] at hd
  rcases List.mem_cons.1 hd with rfl | hd
  · exact isAlphanum_toUpper hc
  · rcases hform with rfl | rfl
    · exact hcs d hd
    · obtain ⟨e, he, rfl⟩ := List.mem_map.1 hd
      exact isAlphanum_toUpper (hcs e he)

theorem map_toLower_of_isEnumValueName {value : String} (h : isEnumValueName value = true) :
    ∃ c cs, value.toList.map Char.toLower = c :: cs ∧ c.isLower ∧
      (∀ d ∈ c :: cs, d.isAlphanum ∨ d = '_') ∧
      (value.toList.map Char.toLower).map Char.toUpper = value.toList := by
  obtain ⟨c, cs, hvalue, hc, hcs⟩ := chars_of_isEnumValueName h
  have hfirst : c.toLower.isLower := by simp [Char.isAlpha, hc]
  have hupper : ∀ d ∈ c :: cs, d.isUpper ∨ d.isDigit ∨ d = '_' :=
    List.forall_mem_cons.2 ⟨Or.inl hc, hcs⟩
  have hlower : ∀ d ∈ c :: cs, ¬ d.isLower := by
    intro d hd
    rcases hupper d hd with hd | hd | rfl
    · exact Char.not_isLower_of_isUpper hd
    · exact not_isLower_of_isDigit hd
    · decide
  have hchars : ∀ d ∈ (c :: cs).map Char.toLower, d.isAlphanum ∨ d = '_' := by
    refine List.forall_mem_map.2 fun d hd => ?_
    rcases hupper d hd with hd | hd | rfl
    · exact Or.inl (by simp [Char.isAlphanum, Char.isAlpha, hd])
    · rw [Char.toLower_eq_of_not_isUpper (not_isUpper_of_isDigit hd)]
      exact Or.inl (by simp [Char.isAlphanum, hd])
    · exact Or.inr rfl
  rw [hvalue]
  exact ⟨c.toLower, cs.map Char.toLower, List.map_cons, hfirst, hchars,
    map_toUpper_map_toLower hlower⟩

/-- The value `SELF`, perhaps with underscores after it. -/
def IsSelf (value : String) : Prop := ∃ n, value.toList = "SELF".toList ++ List.replicate n '_'

/-- A public name that goes on in small letters is that of a single part. -/
theorem eq_append_replicate_of_publicName {c first : Char} (hc : c ≠ '_') {cs rest : List Char}
    (hrest : ∀ d ∈ rest, d.isLower) (h : publicName (c :: cs) = first :: rest) :
    c.toUpper = first ∧ ∃ n, cs = rest ++ List.replicate n '_' := by
  obtain ⟨piece, pieces, hsplit, hsegments⟩ := segments_cons hc cs
  obtain ⟨form, hform, hcases⟩ := publicSegment_cons c piece
  rw [publicName, hsegments, List.flatMap_cons, hform, List.cons_append] at h
  obtain ⟨hfirst, htail⟩ := List.cons.inj h
  have hupper : ∀ a : Char, a.toUpper ∉ rest := fun a hmem => absurd (hrest _ hmem) (by simp)
  -- the next part would begin with a letter in upper case, or a digit
  have hpieces : (pieces.filter fun s => !s.isEmpty) = [] := by
    refine List.eq_nil_iff_forall_not_mem.2 fun next hnext => ?_
    obtain ⟨a, as, rfl⟩ := List.exists_cons_of_ne_nil (l := next) (by rintro rfl; simp at hnext)
    obtain ⟨more, hmore, -⟩ := publicSegment_cons a as
    refine hupper a ?_
    rw [← htail, List.mem_append, List.mem_flatMap]
    exact Or.inr ⟨_, hnext, hmore ▸ List.mem_cons_self⟩
  have hempty : pieces = List.replicate pieces.length [] := by
    refine List.eq_replicate_of_mem fun piece hpiece => ?_
    by_contra hne
    exact List.not_mem_nil (hpieces ▸ List.mem_filter.2 ⟨hpiece, by simpa using hne⟩)
  rw [hpieces, List.flatMap_nil, List.append_nil] at htail
  have hpiece : piece = rest := by
    rcases hcases with rfl | rfl
    · exact htail
    · cases piece with
      | nil => exact htail
      | cons a as => exact absurd (htail ▸ List.mem_cons_self) (hupper a)
  have hunderscore : '_' ∉ c :: rest := by
    rw [← hpiece]
    exact (mem_split (hsplit ▸ List.mem_cons_self)).1
  have hname : c :: cs = (c :: rest) ++ List.replicate pieces.length '_' := by
    rw [← split_inj '_', hsplit, split_append_replicate hunderscore, ← hempty, hpiece]
  exact ⟨hfirst, pieces.length, (List.cons.inj hname).2⟩

theorem toVariant_eq_self_iff {value : String} (h : isEnumValueName value = true) :
    toVariant value = "Self" ↔ IsSelf value := by
  obtain ⟨c, cs, hname, hc, -, hvalue⟩ := map_toLower_of_isEnumValueName h
  constructor
  · intro hvariant
    have hpublic : publicName (c :: cs) = 'S' :: ['e', 'l', 'f'] := by
      rw [← hname]
      exact String.ofList_inj.1 hvariant
    have hne : c ≠ '_' := by rintro rfl; exact absurd hc (by decide)
    have hsmall : ∀ d ∈ ['e', 'l', 'f'], d.isLower := by simp
    obtain ⟨hfirst, n, hrest⟩ := eq_append_replicate_of_publicName hne hsmall hpublic
    refine ⟨n, ?_⟩
    rw [← hvalue, hname, List.map_cons, hfirst, hrest, List.map_append, List.map_replicate]
    rfl
  · rintro ⟨n, hself⟩
    have hsmall : value.toList.map Char.toLower =
        ['s', 'e', 'l', 'f'] ++ List.replicate n '_' := by
      rw [hself, List.map_append, List.map_replicate]
      rfl
    have hpieces : ((List.replicate n ([] : List Char)).filter fun s => !s.isEmpty) = [] := by
      simp
    rw [toVariant, hsmall, publicName, segments, split_append_replicate (by decide),
      List.filter_cons_of_pos (by decide), hpieces]
    rfl

end Name

namespace Code

open Text Step

/-! ## Identifiers -/

/-- The keywords of the generated language, in its edition of 2024: the ones with a meaning,
and the ones that are kept for later. -/
def keywords : List String :=
  ["as", "async", "await", "break", "const", "continue", "crate", "dyn", "else", "enum", "extern",
   "false", "fn", "for", "if", "impl", "in", "let", "loop", "match", "mod", "move", "mut", "pub",
   "ref", "return", "self", "Self", "static", "struct", "super", "trait", "true", "type",
   "unsafe", "use", "where", "while"] ++
  ["abstract", "become", "box", "do", "final", "gen", "macro", "override", "priv", "try", "typeof",
   "unsized", "virtual", "yield"]

/-- The keywords that cannot be written with a mark. -/
def markless : List String := ["self", "Self", "super", "crate"]

/-- A letter and then letters, digits and underscores. -/
def isWord (text : String) : Bool :=
  Name.hasShape Char.isAlpha (fun c => c.isAlphanum || c == '_') text.toList

/-- The legal identifiers: words that are no keywords, and keywords with a mark in front. -/
def IsIdentifier (text : String) : Prop :=
  (isWord text = true ∧ text ∉ keywords) ∨
    ∃ word ∈ keywords, word ∉ markless ∧ text = "r#" ++ word

theorem isWord_iff {text : String} : isWord text = true ↔
    ∃ c cs, text.toList = c :: cs ∧ c.isAlpha ∧ ∀ d ∈ cs, d.isAlphanum ∨ d = '_' := by
  rw [isWord, Name.hasShape_iff]
  simp only [Bool.or_eq_true, beq_iff_eq]

theorem isAlphanum_of_isWord {text : String} (h : isWord text = true) :
    ∀ c ∈ text.toList, c.isAlphanum ∨ c = '_' := by
  obtain ⟨first, cs, htext, hfirst, hcs⟩ := isWord_iff.1 h
  rw [htext]
  exact List.forall_mem_cons.2 ⟨Or.inl (by simp [Char.isAlphanum, hfirst]), hcs⟩

theorem not_mem_of_isWord {text : String} (h : isWord text = true) {c : Char}
    (hc : c.isAlphanum = false) (hne : c ≠ '_') : c ∉ text.toList := by
  intro hmem
  rcases isAlphanum_of_isWord h c hmem with hc' | heq
  · exact Bool.false_ne_true (hc.symm.trans hc')
  · exact hne heq

theorem isWord_of_isEnumValueName {value : String} (h : Name.isEnumValueName value = true) :
    isWord value = true := by
  obtain ⟨c, cs, hvalue, hc, hcs⟩ := Name.chars_of_isEnumValueName h
  refine isWord_iff.2 ⟨c, cs, hvalue, by simp [Char.isAlpha, hc], fun d hd => ?_⟩
  rcases hcs d hd with hd | hd | rfl
  · exact Or.inl (by simp [Char.isAlphanum, Char.isAlpha, hd])
  · exact Or.inl (by simp [Char.isAlphanum, hd])
  · exact Or.inr rfl

theorem tight_of_isWord {text : String} (h : isWord text = true) : Text.Tight text.toList := by
  refine Text.tight_of_forall_mem fun c hc hwhite => ?_
  have halphanum : c.isAlphanum = false :=
    Bool.eq_false_iff.2 fun halphanum => Text.not_isWhiteSpace_of_isAlphanum halphanum hwhite
  have hne : c ≠ '_' := by
    rintro rfl
    exact absurd hwhite (by decide)
  exact not_mem_of_isWord h halphanum hne hc

theorem isWord_of_isFieldName {name : String} (h : Name.isFieldName name = true) :
    isWord name = true := by
  obtain ⟨c, cs, hname, hc, hcs⟩ := Name.chars_of_isFieldName h
  refine isWord_iff.2 ⟨c, cs, hname, by simp [Char.isAlpha, hc], fun d hd => ?_⟩
  rcases hcs d hd with hd | hd | rfl
  · exact Or.inl (by simp [Char.isAlphanum, Char.isAlpha, hd])
  · exact Or.inl (by simp [Char.isAlphanum, hd])
  · exact Or.inr rfl

theorem isIdentifier_iff_of_isWord {text : String} (h : isWord text = true) :
    IsIdentifier text ↔ text ∉ keywords := by
  refine ⟨?_, fun hword => Or.inl ⟨h, hword⟩⟩
  rintro (⟨-, hword⟩ | ⟨word, -, -, rfl⟩)
  · exact hword
  · have hmark := not_mem_of_isWord h (c := '#') (by decide) (by decide)
    exact absurd (by simp) hmark

/-- The keyword that begins with a capital is no identifier. -/
theorem IsIdentifier.ne_self {text : String} (h : IsIdentifier text) : text ≠ "Self" := by
  rintro rfl
  exact (isIdentifier_iff_of_isWord (by decide)).1 h (by decide)

theorem isIdentifier_of_isTypeName {name : String} (h : Name.isTypeName name = true) :
    IsIdentifier name := by
  have hkeywords : ∀ word ∈ keywords, Name.isTypeName word = false := by decide
  obtain ⟨c, cs, hname, hc, hcs⟩ := FieldType.isUpper_head_of_isTypeName h
  have hword : isWord name = true :=
    isWord_iff.2 ⟨c, cs, hname, by simp [Char.isAlpha, hc], fun d hd => Or.inl (hcs d hd)⟩
  refine (isIdentifier_iff_of_isWord hword).2 fun hmem => ?_
  rw [hkeywords name hmem] at h
  exact nomatch h

theorem isIdentifier_toIdentifier {name : String} (h : Name.isFieldName name = true) :
    IsIdentifier (Name.toIdentifier name) := by
  have hkeywords : ∀ word ∈ keywords, Name.isFieldName word = true → word ∈ Name.reservedWords := by
    decide
  have hreserved : ∀ word ∈ Name.reservedWords, word ∈ keywords ∧ word ∉ markless := by decide
  rw [Name.toIdentifier]
  by_cases hname : name ∈ Name.reservedWords
  · rw [if_pos (by simpa using hname)]
    exact Or.inr ⟨name, (hreserved name hname).1, (hreserved name hname).2, rfl⟩
  · rw [if_neg (by simpa using hname)]
    exact Or.inl ⟨isWord_of_isFieldName h, fun hmem => hname (hkeywords name hmem h)⟩

theorem isIdentifier_toVariant_iff {value : String} (h : Name.isEnumValueName value = true) :
    IsIdentifier (Name.toVariant value) ↔ Name.toVariant value ≠ "Self" := by
  obtain ⟨c, cs, hname, hc, hchars, -⟩ := Name.map_toLower_of_isEnumValueName h
  have hne : c ≠ '_' := by rintro rfl; exact absurd hc (by decide)
  obtain ⟨rest, hpublic⟩ := Name.publicName_cons hne cs
  have hvariant : (Name.toVariant value).toList = c.toUpper :: rest := by
    rw [Name.toVariant, String.toList_ofList, hname, hpublic]
  have hupper : c.toUpper.isUpper = true := by simp [Char.isAlpha, hc]
  have hword : isWord (Name.toVariant value) = true := by
    refine isWord_iff.2 ⟨_, rest, hvariant, by simp [Char.isAlpha, hupper], fun d hd => Or.inl ?_⟩
    refine Name.isAlphanum_of_mem_publicName hchars ?_
    rw [hpublic]
    exact List.mem_cons_of_mem _ hd
  -- of the keywords, only one begins with a capital
  have hkeywords : ∀ word ∈ keywords, (word.toList.head?.any Char.isUpper) = true → word = "Self" := by
    decide
  rw [isIdentifier_iff_of_isWord hword]
  refine not_congr ⟨fun hmem => hkeywords _ hmem ?_, fun heq => ?_⟩
  · rw [hvariant]
    exact hupper
  · rw [heq]
    decide

/-! ## Accepted schemas -/

/-- The identifiers that the code of a schema declares: the types, the variants of the enums,
and the slots and methods of the messages. -/
def identifiers (schema : Schema) (options : Options) : List String :=
  typeNames (moduleCode schema options) ++
    (schema.enums.flatMap fun decl => namesOn variantName? (enumType decl)) ++
    schema.messages.flatMap fun decl =>
      namesOn slotIdentifier? (record decl) ++ namesOn methodIdentifier? (recordMethods decl)

theorem identifiers_eq {raw : RawSchema} {schema : Schema} (h : Schema.resolve raw = .ok schema)
    (options : Options) : identifiers schema options =
      (schema.enums.map (fun decl => decl.type.name) ++ schema.messages.map MessageDecl.name) ++
        (schema.enums.flatMap fun decl => decl.type.names.map Name.toVariant) ++
        schema.messages.flatMap fun decl =>
          (decl.fields.map FieldDecl.name).map Name.toIdentifier ++
            (decl.fields.flatMap methodsOf).map Name.toIdentifier := by
  obtain ⟨henums, hmessages⟩ := isTypeName_of_resolve h
  have hmembers : (schema.messages.flatMap fun decl =>
      namesOn slotIdentifier? (record decl) ++ namesOn methodIdentifier? (recordMethods decl)) =
      schema.messages.flatMap fun decl =>
        (decl.fields.map FieldDecl.name).map Name.toIdentifier ++
          (decl.fields.flatMap methodsOf).map Name.toIdentifier := by
    refine List.flatMap_congr fun decl hdecl => ?_
    have hwell := Schema.wellNamed_of_resolve h hdecl
    rw [slotIdentifiers_record (hmessages decl hdecl) hwell, methodIdentifiers_recordMethods hwell]
  rw [identifiers, typeNames_moduleCode options henums hmessages, hmembers]
  simp only [variantNames_enumType]

theorem isIdentifier_of_mem_message {decl : MessageDecl} (h : Schema.WellNamed decl)
    {identifier : String}
    (hmem : identifier ∈ (decl.fields.map FieldDecl.name).map Name.toIdentifier ++
      (decl.fields.flatMap methodsOf).map Name.toIdentifier) : IsIdentifier identifier := by
  rw [← List.map_append] at hmem
  obtain ⟨name, hname, rfl⟩ := List.mem_map.1 hmem
  refine isIdentifier_toIdentifier ?_
  rcases List.mem_append.1 hname with hname | hname
  · obtain ⟨field, hfield, rfl⟩ := List.mem_map.1 hname
    exact h.valid field hfield
  · exact isFieldName_of_mem_flatMap h name hname

/-- What is not legal for another reason is the variant of a value. -/
theorem isIdentifier_or_exists_value {raw : RawSchema} {schema : Schema}
    (h : Schema.resolve raw = .ok schema) {options : Options} {identifier : String}
    (hmem : identifier ∈ identifiers schema options) :
    IsIdentifier identifier ∨
      ∃ decl ∈ schema.enums, ∃ value ∈ decl.type.names, Name.toVariant value = identifier := by
  obtain ⟨henums, hmessages⟩ := isTypeName_of_resolve h
  rw [identifiers_eq h, List.mem_append, List.mem_append, List.mem_append] at hmem
  rcases hmem with ((hmem | hmem) | hmem) | hmem
  · obtain ⟨decl, hdecl, rfl⟩ := List.mem_map.1 hmem
    exact Or.inl (isIdentifier_of_isTypeName (henums decl hdecl))
  · obtain ⟨decl, hdecl, rfl⟩ := List.mem_map.1 hmem
    exact Or.inl (isIdentifier_of_isTypeName (hmessages decl hdecl))
  · obtain ⟨decl, hdecl, hmem⟩ := List.mem_flatMap.1 hmem
    obtain ⟨value, hvalue, rfl⟩ := List.mem_map.1 hmem
    exact Or.inr ⟨decl, hdecl, value, hvalue, rfl⟩
  · obtain ⟨decl, hdecl, hmem⟩ := List.mem_flatMap.1 hmem
    exact Or.inl (isIdentifier_of_mem_message (Schema.wellNamed_of_resolve h hdecl) hmem)

theorem toVariant_mem_identifiers {raw : RawSchema} {schema : Schema}
    (h : Schema.resolve raw = .ok schema) (options : Options) {decl : EnumDecl} {value : String}
    (hdecl : decl ∈ schema.enums) (hvalue : value ∈ decl.type.names) :
    Name.toVariant value ∈ identifiers schema options := by
  rw [identifiers_eq h]
  exact List.mem_append_left _ (List.mem_append_right _
    (List.mem_flatMap.2 ⟨decl, hdecl, List.mem_map_of_mem hvalue⟩))

/-- Every identifier that the code of an accepted schema declares is legal, except for `Self`,
which it declares exactly if an enum has the value `SELF`, perhaps with underscores after it. -/
theorem identifiers_legal_iff {raw : RawSchema} {schema : Schema}
    (h : Schema.resolve raw = .ok schema) (options : Options) :
    (identifiers schema options =
      (schema.enums.map (fun decl => decl.type.name) ++ schema.messages.map MessageDecl.name) ++
        (schema.enums.flatMap fun decl => decl.type.names.map Name.toVariant) ++
        schema.messages.flatMap fun decl =>
          (decl.fields.map FieldDecl.name).map Name.toIdentifier ++
            (decl.fields.flatMap methodsOf).map Name.toIdentifier) ∧
    (∀ identifier ∈ identifiers schema options, IsIdentifier identifier ↔ identifier ≠ "Self") ∧
    ((∀ identifier ∈ identifiers schema options, IsIdentifier identifier) ↔
      ∀ decl ∈ schema.enums, ∀ value ∈ decl.type.names, ¬ Name.IsSelf value) := by
  have hvariant : ∀ decl ∈ schema.enums, ∀ value ∈ decl.type.names,
      (IsIdentifier (Name.toVariant value) ↔ Name.toVariant value ≠ "Self") ∧
        (Name.toVariant value = "Self" ↔ Name.IsSelf value) := by
    intro decl hdecl value hvalue
    have hname := (values_of_resolve h hdecl).1 value hvalue
    exact ⟨isIdentifier_toVariant_iff hname, Name.toVariant_eq_self_iff hname⟩
  refine ⟨identifiers_eq h options, fun identifier hmem => ?_, fun hlegal => ?_,
    fun hvalues identifier hmem => ?_⟩
  · rcases isIdentifier_or_exists_value h hmem with hlegal | ⟨decl, hdecl, value, hvalue, rfl⟩
    · exact iff_of_true hlegal hlegal.ne_self
    · exact (hvariant decl hdecl value hvalue).1
  · intro decl hdecl value hvalue hself
    obtain ⟨hiff, hselfIff⟩ := hvariant decl hdecl value hvalue
    exact hiff.1 (hlegal _ (toVariant_mem_identifiers h options hdecl hvalue)) (hselfIff.2 hself)
  · rcases isIdentifier_or_exists_value h hmem with hlegal | ⟨decl, hdecl, value, hvalue, rfl⟩
    · exact hlegal
    · obtain ⟨hiff, hselfIff⟩ := hvariant decl hdecl value hvalue
      exact hiff.2 (mt hselfIff.1 (hvalues decl hdecl value hvalue))

theorem identifiers_variedSchema :
    Schema.resolve variedDeclaration = .ok variedSchema ∧
      identifiers variedSchema {} =
        ["Mode", "Root", "Part", "FastHTTP", "Slow", "mode", "put_mode", "r#type", "parts", "mode",
          "put_mode", "r#type", "put_type", "parts", "modes", "modes"] ∧
      ∀ identifier ∈ identifiers variedSchema {}, IsIdentifier identifier := by
  have hschema : Schema.resolve variedDeclaration = .ok variedSchema := rfl
  obtain ⟨heq, hlegal, -⟩ := identifiers_legal_iff hschema {}
  have hlist : identifiers variedSchema {} =
      ["Mode", "Root", "Part", "FastHTTP", "Slow", "mode", "put_mode", "r#type", "parts", "mode",
        "put_mode", "r#type", "put_type", "parts", "modes", "modes"] := heq.trans rfl
  refine ⟨hschema, hlist, fun identifier hmem => (hlegal identifier hmem).2 ?_⟩
  rw [hlist] at hmem
  rintro rfl
  exact absurd hmem (by decide)

def selfDeclaration : RawSchema where
  enums := [{ name := "Mode", values := ["SELF"] }]

def selfSchema : Schema where
  enums := [⟨{ name := "Mode", first := "SELF", rest := [] }, ""⟩]
  messages := []

/-- The declaration is accepted, and its code declares a keyword. -/
theorem identifiers_selfSchema :
    Schema.resolve selfDeclaration = .ok selfSchema ∧ "Self" ∈ identifiers selfSchema {} ∧
      ¬ IsIdentifier "Self" := by
  have hschema : Schema.resolve selfDeclaration = .ok selfSchema := rfl
  have hvariant : Name.toVariant "SELF" = "Self" := by decide
  have hmem : Name.toVariant "SELF" ∈ identifiers selfSchema {} :=
    toVariant_mem_identifiers hschema {} List.mem_cons_self List.mem_cons_self
  rw [hvariant] at hmem
  exact ⟨hschema, hmem, fun h => h.ne_self rfl⟩

end Code

end LayeredConfig
