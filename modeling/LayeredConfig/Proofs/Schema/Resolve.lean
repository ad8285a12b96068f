import Mathlib.Data.List.Nodup
import LayeredConfig.Proofs.Except
import LayeredConfig.Proofs.Schema.Cycle
import LayeredConfig.Proofs.Schema.WellFormed

/-!
# What resolution accepts

Each pass over the declarations is characterized on its own: it succeeds exactly
on declarations that meet its conditions, and its result is then determined.
The passes share one condition, that names are new (`Fresh`).  Together they say
that a schema is accepted if and only if it is well-formed, and what it resolves
to (`resolve_eq_ok_iff`).
-/

namespace LayeredConfig.Schema

/-- Names that are distinct, none of them among `seen`. -/
def Fresh (seen names : List String) : Prop := names.Nodup ∧ ∀ name ∈ names, name ∉ seen

theorem fresh_nil (seen : List String) : Fresh seen [] :=
  ⟨List.nodup_nil, fun _ h => absurd h List.not_mem_nil⟩

theorem fresh_cons_iff {seen names : List String} {name : String} :
    Fresh seen (name :: names) ↔ name ∉ seen ∧ Fresh (name :: seen) names := by
  rw [Fresh, Fresh, List.nodup_cons, List.forall_mem_cons]
  simp only [List.mem_cons, not_or]
  constructor
  · rintro ⟨⟨hname, hnodup⟩, hseen, hfresh⟩
    exact ⟨hseen, hnodup, fun other h => ⟨fun heq => hname (heq ▸ h), hfresh other h⟩⟩
  · rintro ⟨hseen, hnodup, hfresh⟩
    exact ⟨⟨fun h => (hfresh name h).1 rfl, hnodup⟩, hseen, fun other h => (hfresh other h).2⟩

theorem fresh_congr {seen seen' names : List String} (h : ∀ name, name ∈ seen ↔ name ∈ seen') :
    Fresh seen names ↔ Fresh seen' names := by
  simp only [Fresh, h]

theorem fresh_iff_nodup_append {seen names : List String} (h : seen.Nodup) :
    Fresh seen names ↔ (seen ++ names).Nodup := by
  rw [List.nodup_append', Fresh]
  exact ⟨fun hf => ⟨h, hf.1, fun name hseen hname => hf.2 name hname hseen⟩,
    fun hn => ⟨hn.2.1, fun name hname hseen => hn.2.2 hseen hname⟩⟩

/-! ## Enums -/

theorem valueFault?_eq_none_iff {owner : String} {seen values : List String} :
    valueFault? owner seen values = none ↔
      (∀ value ∈ values, Name.isEnumValueName value = true) ∧
        Fresh seen (values.map Name.toVariant) := by
  induction values generalizing seen with
  | nil => exact ⟨fun _ => ⟨nofun, fresh_nil _⟩, fun _ => rfl⟩
  | cons value values ih =>
    rw [valueFault?, List.forall_mem_cons, List.map_cons, fresh_cons_iff]
    split_ifs with hvalid hseen
    · simp at hvalid
      simp [hvalid]
    · simp at hseen
      simp [hseen]
    · simp at hvalid hseen
      rw [ih]
      simp only [hvalid, hseen, not_false_eq_true, true_and]

theorem enumType_eq_ok_iff {raw : RawEnum} {type : EnumType} :
    enumType raw = .ok type ↔ raw.WellFormed ∧ raw.HasType type := by
  obtain ⟨name, doc, values⟩ := raw
  cases values with
  | nil => exact ⟨nofun, fun h => absurd rfl h.1.nonempty⟩
  | cons first rest =>
    have hfault : valueFault? name [] (first :: rest) = none ↔
        RawEnum.WellFormed ⟨name, doc, first :: rest⟩ := by
      rw [valueFault?_eq_none_iff]
      exact ⟨fun h => ⟨List.cons_ne_nil _ _, h.1, h.2.1⟩,
        fun h => ⟨h.valid, h.distinct, fun _ _ => List.not_mem_nil⟩⟩
    rw [← hfault, enumType]
    dsimp only
    split
    · rename_i fault h
      simp [h]
    · rename_i h
      constructor
      · intro htype
        obtain rfl := Except.ok.inj htype
        exact ⟨h, rfl, rfl⟩
      · rintro ⟨-, htype⟩
        exact congrArg Except.ok (RawEnum.HasType.unique ⟨rfl, rfl⟩ htype)

/-! ## The table of names -/

theorem isSome_declared?_iff {names : Names} {name : String} :
    (FieldType.declared? names name).isSome ↔ name ∈ names.map Prod.fst := by
  simp [FieldType.declared?, List.find?_isSome]

theorem declared?_eq_some_iff {names : Names} (hnodup : (names.map Prod.fst).Nodup) {name : String}
    {declared : Declared} :
    FieldType.declared? names name = some declared ↔ (name, declared) ∈ names := by
  rw [FieldType.declared?, Option.map_eq_some_iff]
  constructor
  · rintro ⟨entry, hentry, rfl⟩
    obtain ⟨hmem, rfl⟩ := (find?_eq_some_iff_of_nodup hnodup).1 hentry
    exact hmem
  · intro h
    exact ⟨_, (find?_eq_some_iff_of_nodup hnodup).2 ⟨h, rfl⟩, rfl⟩

theorem checkName_eq_ok_iff {names : Names} {name : String} {u : Unit} :
    checkName names name = .ok u ↔
      Name.isTypeName name = true ∧ name ∉ names.map Prod.fst := by
  rw [checkName, ite_error_eq_ok_iff, ite_error_eq_ok_iff, isSome_declared?_iff]
  simp

def enumEntry (decl : EnumDecl) : String × Declared := (decl.type.name, .enum decl.type)

def messageEntry (raw : RawMessage) : String × Declared := (raw.name, .message)

/-- Declaring in an extended table asks for names that are new after the one
declared last. -/
theorem fresh_append_entry_iff {names : Names} (entry : String × Declared) {others : List String} :
    Fresh (names.map Prod.fst) (entry.1 :: others) ↔
      entry.1 ∉ names.map Prod.fst ∧ Fresh ((names ++ [entry]).map Prod.fst) others := by
  rw [fresh_cons_iff]
  refine and_congr_right fun _ => fresh_congr fun name => ?_
  simp [or_comm]

theorem declareEnums_eq_ok_iff {names names' : Names} {raws : List RawEnum}
    {decls : List EnumDecl} :
    declareEnums names raws = .ok (decls, names') ↔
      (∀ raw ∈ raws, Name.isTypeName raw.name = true) ∧
      Fresh (names.map Prod.fst) (raws.map RawEnum.name) ∧ (∀ raw ∈ raws, raw.WellFormed) ∧
      List.Forall₂ RawEnum.ResolvesTo raws decls ∧ names' = names ++ decls.map enumEntry := by
  induction raws generalizing names names' decls with
  | nil =>
    rw [declareEnums, List.forall₂_nil_left_iff]
    constructor
    · intro h
      obtain ⟨rfl, rfl⟩ := Prod.mk.inj (Except.ok.inj h)
      exact ⟨nofun, fresh_nil _, nofun, rfl, (List.append_nil _).symm⟩
    · rintro ⟨-, -, -, rfl, rfl⟩
      rw [List.map_nil, List.append_nil]
  | cons raw raws ih =>
    rw [declareEnums, List.forall_mem_cons, List.forall_mem_cons, List.map_cons,
      List.forall₂_cons_left_iff]
    simp only [bind_eq_ok_iff, checkName_eq_ok_iff, enumType_eq_ok_iff, Prod.exists, ih]
    constructor
    · rintro ⟨-, ⟨hvalid, hnew⟩, type, ⟨hraw, htype⟩, others, names'',
        ⟨hvalids, hfresh, hraws, hothers, rfl⟩, h⟩
      obtain ⟨rfl, rfl⟩ := Prod.mk.inj (Except.ok.inj h)
      refine ⟨⟨hvalid, hvalids⟩, (fresh_append_entry_iff _).2 ⟨hnew, hfresh⟩, ⟨hraw, hraws⟩,
        ⟨_, _, ⟨htype, rfl⟩, hothers, rfl⟩, ?_⟩
      rw [List.append_assoc, List.map_cons, enumEntry, htype.name]
      rfl
    · rintro ⟨⟨hvalid, hvalids⟩, hfresh, ⟨hraw, hraws⟩, ⟨decl, others, hdecl, hothers, rfl⟩, rfl⟩
      obtain ⟨hnew, hfresh⟩ := (fresh_append_entry_iff (raw.name, .enum decl.type)).1 hfresh
      refine ⟨(), ⟨hvalid, hnew⟩, decl.type, ⟨hraw, hdecl.type⟩, others, _,
        ⟨hvalids, hfresh, hraws, hothers, rfl⟩, ?_⟩
      rw [← hdecl.doc, List.append_assoc, List.map_cons, enumEntry, hdecl.type.name]
      rfl

theorem declareMessages_eq_ok_iff {names names' : Names} {raws : List RawMessage} :
    declareMessages names raws = .ok names' ↔
      (∀ raw ∈ raws, Name.isTypeName raw.name = true) ∧
      Fresh (names.map Prod.fst) (raws.map RawMessage.name) ∧
      names' = names ++ raws.map messageEntry := by
  induction raws generalizing names with
  | nil =>
    rw [declareMessages, List.map_nil, List.map_nil, List.append_nil]
    exact ⟨fun h => ⟨nofun, fresh_nil _, (Except.ok.inj h).symm⟩, fun h => congrArg _ h.2.2.symm⟩
  | cons raw raws ih =>
    rw [declareMessages, List.forall_mem_cons, List.map_cons]
    simp only [bind_eq_ok_iff, checkName_eq_ok_iff, ih]
    rw [show raw.name = (messageEntry raw).1 from rfl, fresh_append_entry_iff, List.map_cons,
      List.append_assoc]
    constructor
    · rintro ⟨-, ⟨hvalid, hnew⟩, hvalids, hfresh, rfl⟩
      exact ⟨⟨hvalid, hvalids⟩, ⟨hnew, hfresh⟩, rfl⟩
    · rintro ⟨⟨hvalid, hvalids⟩, ⟨hnew, hfresh⟩, rfl⟩
      exact ⟨(), ⟨hvalid, hnew⟩, hvalids, hfresh, rfl⟩

/-! ## Messages -/

theorem fieldType_eq_ok_iff {names : Names} {message : String} {raw : RawField}
    {type : FieldType} :
    fieldType names message raw = .ok type ↔ FieldType.ofText? names raw.type = some type := by
  rw [fieldType]
  split
  · rename_i h
    simp [h]
  · rename_i h
    simp only [h, reduceCtorEq, iff_false]
    split_ifs <;> exact nofun

/-- The first map field with a clash is missing if no map field has one. -/
theorem setterClash?_eq_none_iff {fields : List FieldDecl} :
    setterClash? fields = none ↔ ∀ field ∈ fields, ∀ key value,
      field.type = .plain (.map key value) → ∀ other ∈ fields, other.name ≠ setterName field.name := by
  rw [setterClash?, List.find?_eq_none]
  refine forall₂_congr fun field _ => ?_
  split
  · rename_i key value htype
    simp [htype]
  · rename_i hother
    simp only [Bool.false_eq_true, not_false_eq_true, true_iff]
    exact fun key value htype => absurd htype (hother key value)

/-- If no written field is called like the setter of a map, no resolved one is. -/
theorem setters_of_forall₂ {declares : String → Declared → Prop} {raws : List RawField}
    {decls : List FieldDecl} (h : List.Forall₂ (RawField.ResolvesTo declares) raws decls)
    (hraws : ∀ raw ∈ raws, ∀ key value,
      FieldType.Denotes declares raw.type.toList (.plain (.map key value)) →
        ∀ other ∈ raws, other.name ≠ setterName raw.name) :
    ∀ decl ∈ decls, ∀ key value, decl.type = .plain (.map key value) →
      ∀ other ∈ decls, other.name ≠ setterName decl.name := by
  intro decl hdecl key value htype other hother
  obtain ⟨raw, hraw, hres⟩ := exists_of_mem_right h hdecl
  obtain ⟨raw', hraw', hres'⟩ := exists_of_mem_right h hother
  rw [hres.name, hres'.name]
  exact hraws raw hraw key value (htype ▸ hres.type) raw' hraw'

theorem resolveFields_cons {names : Names} {message : String} {seen : List String}
    {raw : RawField} {raws : List RawField} :
    resolveFields names message seen (raw :: raws) =
      if !Name.isFieldName raw.name then .error (.invalidName (memberName message raw.name))
      else if seen.contains raw.name then .error (.duplicateName (memberName message raw.name))
      else fieldType names message raw >>= fun type =>
        resolveFields names message (raw.name :: seen) raws >>= fun fields =>
          .ok (⟨raw.name, type, Text.trimString raw.doc⟩ :: fields) := rfl

section

variable {names : Names} {declares : String → Declared → Prop}
  (hdeclared : ∀ name declared,
    FieldType.declared? names name = some declared ↔ declares name declared)
  (hvalid : ∀ name declared, declares name declared → Name.isTypeName name = true)

include hdeclared hvalid

theorem resolveFields_eq_ok_iff {message : String} {seen : List String} {raws : List RawField}
    {decls : List FieldDecl} :
    resolveFields names message seen raws = .ok decls ↔
      (∀ raw ∈ raws, Name.isFieldName raw.name = true) ∧
      Fresh seen (raws.map RawField.name) ∧
      List.Forall₂ (RawField.ResolvesTo declares) raws decls := by
  induction raws generalizing seen decls with
  | nil =>
    rw [resolveFields, List.forall₂_nil_left_iff]
    exact ⟨fun h => ⟨nofun, fresh_nil _, (Except.ok.inj h).symm⟩, fun h => congrArg _ h.2.2.symm⟩
  | cons raw raws ih =>
    rw [resolveFields_cons, List.forall_mem_cons, List.map_cons, fresh_cons_iff,
      List.forall₂_cons_left_iff]
    simp only [ite_error_eq_ok_iff, bind_eq_ok_iff, fieldType_eq_ok_iff,
      FieldType.ofText?_eq_some_iff hdeclared hvalid, ih, Bool.not_eq_true', Bool.not_eq_false,
      List.contains_iff_mem]
    constructor
    · rintro ⟨hname, hseen, type, htype, others, ⟨hnames, hfresh, hothers⟩, h⟩
      obtain rfl := Except.ok.inj h
      exact ⟨⟨hname, hnames⟩, ⟨hseen, hfresh⟩, _, _, ⟨rfl, htype, rfl⟩, hothers, rfl⟩
    · rintro ⟨⟨hname, hnames⟩, ⟨hseen, hfresh⟩, decl, others, hdecl, hothers, rfl⟩
      refine ⟨hname, hseen, decl.type, hdecl.type, others, ⟨hnames, hfresh, hothers⟩, ?_⟩
      rw [← hdecl.name, ← hdecl.doc]

theorem setters_iff {raws : List RawField} {decls : List FieldDecl}
    (h : List.Forall₂ (RawField.ResolvesTo declares) raws decls) :
    (∀ raw ∈ raws, ∀ key value, FieldType.Denotes declares raw.type.toList (.plain (.map key value)) →
        ∀ other ∈ raws, other.name ≠ setterName raw.name) ↔ setterClash? decls = none := by
  rw [setterClash?_eq_none_iff]
  refine ⟨setters_of_forall₂ h, fun hdecls raw hraw key value htype other hother => ?_⟩
  obtain ⟨decl, hdecl, hres⟩ := exists_of_mem_left h hraw
  obtain ⟨decl', hdecl', hres'⟩ := exists_of_mem_left h hother
  rw [← hres.name, ← hres'.name]
  exact hdecls decl hdecl key value (hres.type.unique hdeclared hvalid htype) decl' hdecl'

theorem resolveMessage_eq_ok_iff {raw : RawMessage} {decl : MessageDecl} :
    resolveMessage names raw = .ok decl ↔
      raw.WellFormed declares ∧ raw.ResolvesTo declares decl := by
  rw [resolveMessage]
  simp only [bind_eq_ok_iff, resolveFields_eq_ok_iff hdeclared hvalid]
  constructor
  · rintro ⟨fields, ⟨hnames, hfresh, hfields⟩, h⟩
    split at h
    · exact nomatch h
    · rename_i hclash
      obtain rfl := Except.ok.inj h
      refine ⟨⟨hnames, hfresh.1, fun field hfield => ?_,
        (setters_iff hdeclared hvalid hfields).2 hclash⟩, rfl, rfl, hfields⟩
      obtain ⟨decl, -, hdecl⟩ := exists_of_mem_left hfields hfield
      exact ⟨decl.type, hdecl.type⟩
  · rintro ⟨hwf, hres⟩
    refine ⟨decl.fields, ⟨hwf.valid, ⟨hwf.distinct, fun _ _ => List.not_mem_nil⟩, hres.fields⟩, ?_⟩
    rw [(setters_iff hdeclared hvalid hres.fields).1 hwf.setters, ← hres.name, ← hres.doc]

theorem resolveMessages_eq_ok_iff {raws : List RawMessage} {messages : List MessageDecl} :
    raws.mapM (resolveMessage names) = .ok messages ↔
      (∀ raw ∈ raws, raw.WellFormed declares) ∧
      List.Forall₂ (RawMessage.ResolvesTo declares) raws messages := by
  rw [mapM_eq_ok_iff]
  simp only [resolveMessage_eq_ok_iff hdeclared hvalid]
  exact List.forall₂_and_left _ _

end

/-! ## The whole schema -/

section

variable {raw : RawSchema} {enums : List EnumDecl}

theorem map_fst_enumEntry (henums : List.Forall₂ RawEnum.ResolvesTo raw.enums enums) :
    (enums.map enumEntry).map Prod.fst = raw.enums.map RawEnum.name := by
  rw [List.map_map]
  exact (map_eq_map_of_forall₂ (fun _ _ hdecl => hdecl.type.name.symm) henums).symm

def declaredNames (raw : RawSchema) (enums : List EnumDecl) : Names :=
  enums.map enumEntry ++ raw.messages.map messageEntry

theorem map_fst_declaredNames (henums : List.Forall₂ RawEnum.ResolvesTo raw.enums enums) :
    (declaredNames raw enums).map Prod.fst = raw.typeNames := by
  rw [declaredNames, List.map_append, map_fst_enumEntry henums, List.map_map]
  rfl

theorem mem_declaredNames_iff (henums : List.Forall₂ RawEnum.ResolvesTo raw.enums enums)
    {name : String} {declared : Declared} :
    (name, declared) ∈ declaredNames raw enums ↔ raw.Declares name declared := by
  rw [declaredNames, List.mem_append, List.mem_map, List.mem_map]
  constructor
  · rintro (⟨decl, hdecl, h⟩ | ⟨decl, hdecl, h⟩)
    · obtain ⟨rfl, rfl⟩ := Prod.mk.inj h
      obtain ⟨source, hsource, hres⟩ := exists_of_mem_right henums hdecl
      rw [hres.type.name]
      exact .enum hsource hres.type
    · obtain ⟨rfl, rfl⟩ := Prod.mk.inj h
      exact .message hdecl
  · intro h
    cases h with
    | @enum source type hsource htype =>
      obtain ⟨decl, hdecl, hres⟩ := exists_of_mem_left henums hsource
      refine Or.inl ⟨decl, hdecl, ?_⟩
      rw [enumEntry, hres.type.unique htype, htype.name]
    | message hdecl => exact Or.inr ⟨_, hdecl, rfl⟩

theorem declared?_declaredNames_iff (hdistinct : raw.typeNames.Nodup)
    (henums : List.Forall₂ RawEnum.ResolvesTo raw.enums enums) (name : String)
    (declared : Declared) :
    FieldType.declared? (declaredNames raw enums) name = some declared ↔
      raw.Declares name declared := by
  rw [declared?_eq_some_iff (by rwa [map_fst_declaredNames henums]), mem_declaredNames_iff henums]

theorem declare_eq_ok_iff {names : Names} :
    (∃ enumNames, declareEnums [] raw.enums = .ok (enums, enumNames) ∧
        declareMessages enumNames raw.messages = .ok names) ↔
      (∀ name ∈ raw.typeNames, Name.isTypeName name = true) ∧ raw.typeNames.Nodup ∧
      (∀ decl ∈ raw.enums, decl.WellFormed) ∧
      List.Forall₂ RawEnum.ResolvesTo raw.enums enums ∧ names = declaredNames raw enums := by
  simp only [declareEnums_eq_ok_iff, declareMessages_eq_ok_iff, RawSchema.typeNames,
    List.forall_mem_append, List.forall_mem_map, List.map_nil, List.nil_append]
  constructor
  · rintro ⟨enumNames, ⟨hvalid, hfresh, hwf, henums, rfl⟩, hvalid', hfresh', rfl⟩
    rw [map_fst_enumEntry henums, fresh_iff_nodup_append hfresh.1] at hfresh'
    exact ⟨⟨hvalid, hvalid'⟩, hfresh', hwf, henums, rfl⟩
  · rintro ⟨⟨hvalid, hvalid'⟩, hdistinct, hwf, henums, rfl⟩
    have hnodup := hdistinct.of_append_left
    refine ⟨_, ⟨hvalid, ⟨hnodup, fun _ _ => List.not_mem_nil⟩, hwf, henums, rfl⟩, hvalid', ?_, rfl⟩
    rwa [map_fst_enumEntry henums, fresh_iff_nodup_append hnodup]

section

variable {names : Names} {messages : List MessageDecl}
  (hdeclared : ∀ name declared,
    FieldType.declared? names name = some declared ↔ raw.Declares name declared)
  (hvalid : ∀ name declared, raw.Declares name declared → Name.isTypeName name = true)
  (hdistinct : (raw.messages.map RawMessage.name).Nodup)
  (hmessages : List.Forall₂ (RawMessage.ResolvesTo raw.Declares) raw.messages messages)

include hdeclared hvalid hdistinct hmessages

/-- A resolved message refers to the messages that the written one contains. -/
theorem mem_references_iff_contains {name other : String} :
    other ∈ references messages name ↔ raw.Contains name other := by
  have hnames := map_eq_map_of_forall₂ (fun _ _ hm => hm.name.symm) hmessages
  rw [mem_references_iff (hnames ▸ hdistinct)]
  simp only [MessageDecl.references, List.mem_filterMap]
  constructor
  · rintro ⟨m, hm, rfl, field, hfield, hother⟩
    obtain ⟨source, hsource, hres⟩ := exists_of_mem_right hmessages hm
    obtain ⟨rawField, hraw, hfieldRes⟩ := exists_of_mem_right hres.fields hfield
    exact ⟨source, hsource, hres.name.symm, rawField, hraw, field.type, hfieldRes.type, hother⟩
  · rintro ⟨source, hsource, rfl, rawField, hraw, type, htype, hother⟩
    obtain ⟨m, hm, hres⟩ := exists_of_mem_left hmessages hsource
    obtain ⟨field, hfield, hfieldRes⟩ := exists_of_mem_left hres.fields hraw
    refine ⟨m, hm, hres.name, field, hfield, ?_⟩
    rw [hfieldRes.type.unique hdeclared hvalid htype, hother]

theorem cycle?_eq_none_iff_acyclic :
    cycle? messages = none ↔ ∀ name, ¬ Relation.TransGen raw.Contains name name := by
  have hrefers : Refers (references messages) = raw.Contains := by
    funext name other
    exact propext (mem_references_iff_contains hdeclared hvalid hdistinct hmessages)
  rw [cycle?_eq_none_iff, hrefers]

end

theorem resolve_eq_ok_iff_passes {schema : Schema} :
    resolve raw = .ok schema ↔ ∃ names,
      (∃ enumNames, declareEnums [] raw.enums = .ok (schema.enums, enumNames) ∧
        declareMessages enumNames raw.messages = .ok names) ∧
      raw.messages.mapM (resolveMessage names) = .ok schema.messages ∧
      cycle? schema.messages = none := by
  rw [resolve]
  simp only [bind_eq_ok_iff, Prod.exists]
  constructor
  · rintro ⟨enums, enumNames, henums, names, hnames, messages, hmessages, h⟩
    split at h
    · exact nomatch h
    · rename_i hcycle
      obtain rfl := Except.ok.inj h
      exact ⟨names, ⟨enumNames, henums, hnames⟩, hmessages, hcycle⟩
  · rintro ⟨names, ⟨enumNames, henums, hnames⟩, hmessages, hcycle⟩
    refine ⟨schema.enums, enumNames, henums, names, hnames, schema.messages, hmessages, ?_⟩
    rw [hcycle]

/-- Well-formed schemas are accepted, and no others; what one resolves to is the
same declarations in the same order. -/
theorem resolve_eq_ok_iff {schema : Schema} :
    resolve raw = .ok schema ↔ raw.WellFormed ∧ raw.ResolvesTo schema := by
  rw [resolve_eq_ok_iff_passes]
  simp only [declare_eq_ok_iff]
  constructor
  · rintro ⟨names, ⟨hvalid, hdistinct, henumsWf, henums, rfl⟩, hmessages, hcycle⟩
    have hdeclared := declared?_declaredNames_iff hdistinct henums
    have hnames : ∀ name declared, raw.Declares name declared → Name.isTypeName name = true :=
      fun name _ h => hvalid name h.mem_typeNames
    obtain ⟨hwf, hmessages⟩ := (resolveMessages_eq_ok_iff hdeclared hnames).1 hmessages
    have hacyclic := (cycle?_eq_none_iff_acyclic hdeclared hnames hdistinct.of_append_right
      hmessages).1 hcycle
    exact ⟨⟨hvalid, hdistinct, henumsWf, hwf, hacyclic⟩, henums, hmessages⟩
  · rintro ⟨hwf, henums, hmessages⟩
    have hdeclared := declared?_declaredNames_iff hwf.distinct henums
    have hnames : ∀ name declared, raw.Declares name declared → Name.isTypeName name = true :=
      fun name _ h => hwf.valid name h.mem_typeNames
    exact ⟨_, ⟨hwf.valid, hwf.distinct, hwf.enums, henums, rfl⟩,
      (resolveMessages_eq_ok_iff hdeclared hnames).2 ⟨hwf.messages, hmessages⟩,
      (cycle?_eq_none_iff_acyclic hdeclared hnames hwf.distinct.of_append_right hmessages).2
        hwf.acyclic⟩

theorem exists_resolve_iff : (∃ schema, resolve raw = .ok schema) ↔ raw.WellFormed := by
  simp only [resolve_eq_ok_iff]
  constructor
  · rintro ⟨schema, h, -⟩
    exact h
  · intro h
    obtain ⟨schema, hschema⟩ := h.exists_resolvesTo
    exact ⟨schema, h, hschema⟩

end

/-! ## The names of an accepted schema -/

/-- A resolved message whose fields have distinct valid names, none of them the
name of the setter of a map. -/
structure WellNamed (decl : MessageDecl) : Prop where
  valid : ∀ field ∈ decl.fields, Name.isFieldName field.name = true
  distinct : (decl.fields.map FieldDecl.name).Nodup
  setters : ∀ field ∈ decl.fields, ∀ key value, field.type = .plain (.map key value) →
    ∀ other ∈ decl.fields, other.name ≠ setterName field.name

theorem WellNamed.of_resolvesTo {declares : String → Declared → Prop} {raw : RawMessage}
    {decl : MessageDecl} (h : raw.WellFormed declares) (hres : raw.ResolvesTo declares decl) :
    WellNamed decl := by
  have hnames := map_eq_map_of_forall₂ (fun _ _ hfield => hfield.name.symm) hres.fields
  refine ⟨fun field hfield => ?_, hnames ▸ h.distinct, setters_of_forall₂ hres.fields h.setters⟩
  obtain ⟨rawField, hraw, hfieldRes⟩ := exists_of_mem_right hres.fields hfield
  exact hfieldRes.name ▸ h.valid rawField hraw

theorem nodup_names_of_resolve {raw : RawSchema} {schema : Schema}
    (h : resolve raw = .ok schema) : (schema.messages.map MessageDecl.name).Nodup := by
  obtain ⟨hwf, hres⟩ := resolve_eq_ok_iff.1 h
  rw [← map_eq_map_of_forall₂ (fun _ _ hdecl => hdecl.name.symm) hres.messages]
  exact hwf.distinct.of_append_right

theorem wellNamed_of_resolve {raw : RawSchema} {schema : Schema} (h : resolve raw = .ok schema)
    {decl : MessageDecl} (hdecl : decl ∈ schema.messages) : WellNamed decl := by
  obtain ⟨hwf, hres⟩ := resolve_eq_ok_iff.1 h
  obtain ⟨source, hsource, hmessage⟩ := exists_of_mem_right hres.messages hdecl
  exact .of_resolvesTo (hwf.messages source hsource) hmessage

end LayeredConfig.Schema
