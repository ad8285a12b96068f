import Mathlib.Data.List.Nodup
import Mathlib.Logic.Relation
import LayeredConfig.Proofs.Except
import LayeredConfig.Proofs.Schema.TypeText
import LayeredConfig.Schema.Resolve

/-!
# Well-formed schemas

What a declared schema has to be like, without reference to how it is checked:
the names it may use, what they stand for (`Declares`), and that no message
contains itself.  `ResolvesTo` says which resolved declarations are the same as
the written ones, with the types that their texts denote and with trimmed
documentation.
-/

namespace LayeredConfig

open Relation

namespace EnumType

theorem eq_of_names {e e' : EnumType} (hname : e.name = e'.name) (hnames : e.names = e'.names) :
    e = e' := by
  obtain ⟨name, first, rest, distinct⟩ := e
  obtain ⟨name', first', rest', distinct'⟩ := e'
  obtain rfl := hname
  obtain ⟨rfl, rfl⟩ := List.cons_eq_cons.1 hnames
  rfl

end EnumType

namespace RawEnum

structure WellFormed (raw : RawEnum) : Prop where
  nonempty : raw.values ≠ []
  valid : ∀ value ∈ raw.values, Name.isEnumValueName value = true
  distinct : (raw.values.map Name.toVariant).Nodup

/-- The enum type with the name and the values of a declaration. -/
structure HasType (raw : RawEnum) (type : EnumType) : Prop where
  name : type.name = raw.name
  values : type.names = raw.values

structure ResolvesTo (raw : RawEnum) (decl : EnumDecl) : Prop where
  type : raw.HasType decl.type
  doc : decl.doc = Text.trimString raw.doc

theorem HasType.unique {raw : RawEnum} {type type' : EnumType} (h : raw.HasType type)
    (h' : raw.HasType type') : type = type' :=
  EnumType.eq_of_names (h.name.trans h'.name.symm) (h.values.trans h'.values.symm)

theorem WellFormed.exists_resolvesTo {raw : RawEnum} (h : raw.WellFormed) :
    ∃ decl, raw.ResolvesTo decl := by
  obtain ⟨first, rest, hvalues⟩ := List.exists_cons_of_ne_nil h.nonempty
  have hnodup : (first :: rest).Nodup := hvalues ▸ List.Nodup.of_map _ h.distinct
  exact ⟨⟨⟨raw.name, first, rest, hnodup⟩, _⟩, ⟨rfl, hvalues.symm⟩, rfl⟩

end RawEnum

section

variable (declares : String → Declared → Prop)

structure RawField.ResolvesTo (raw : RawField) (decl : FieldDecl) : Prop where
  name : decl.name = raw.name
  type : FieldType.Denotes declares raw.type.toList decl.type
  doc : decl.doc = Text.trimString raw.doc

structure RawMessage.ResolvesTo (raw : RawMessage) (decl : MessageDecl) : Prop where
  name : decl.name = raw.name
  doc : decl.doc = Text.trimString raw.doc
  fields : List.Forall₂ (RawField.ResolvesTo declares) raw.fields decl.fields

/-- The fields of a message have distinct valid names and types, and no field
has the name of the setter of a map. -/
structure RawMessage.WellFormed (raw : RawMessage) : Prop where
  valid : ∀ field ∈ raw.fields, Name.isFieldName field.name = true
  distinct : (raw.fields.map RawField.name).Nodup
  typed : ∀ field ∈ raw.fields, ∃ type, FieldType.Denotes declares field.type.toList type
  setters : ∀ field ∈ raw.fields, ∀ key value,
    FieldType.Denotes declares field.type.toList (.plain (.map key value)) →
      ∀ other ∈ raw.fields, other.name ≠ Schema.setterName field.name

theorem RawMessage.WellFormed.exists_resolvesTo {declares : String → Declared → Prop}
    {raw : RawMessage} (h : raw.WellFormed declares) : ∃ decl, raw.ResolvesTo declares decl := by
  have hfields : ∀ field ∈ raw.fields, ∃ decl, RawField.ResolvesTo declares field decl := by
    intro field hfield
    obtain ⟨type, htype⟩ := h.typed field hfield
    exact ⟨⟨field.name, type, _⟩, rfl, htype, rfl⟩
  obtain ⟨fields, hfields⟩ := exists_forall₂ hfields
  exact ⟨⟨raw.name, _, fields⟩, rfl, rfl, hfields⟩

end

namespace RawSchema

/-- The declared names, those of enums first. -/
def typeNames (raw : RawSchema) : List String :=
  raw.enums.map RawEnum.name ++ raw.messages.map RawMessage.name

/-- What the declared names stand for. -/
inductive Declares (raw : RawSchema) : String → Declared → Prop
  | enum {decl : RawEnum} {type : EnumType} (h : decl ∈ raw.enums) (htype : decl.HasType type) :
    Declares raw decl.name (.enum type)
  | message {decl : RawMessage} (h : decl ∈ raw.messages) : Declares raw decl.name .message

/-- A message has a field that holds another message, or a list of them. -/
def Contains (raw : RawSchema) (name other : String) : Prop :=
  ∃ decl ∈ raw.messages, decl.name = name ∧ ∃ field ∈ decl.fields, ∃ type,
    FieldType.Denotes raw.Declares field.type.toList type ∧ type.reference? = some other

structure WellFormed (raw : RawSchema) : Prop where
  valid : ∀ name ∈ raw.typeNames, Name.isTypeName name = true
  distinct : raw.typeNames.Nodup
  enums : ∀ decl ∈ raw.enums, decl.WellFormed
  messages : ∀ decl ∈ raw.messages, decl.WellFormed raw.Declares
  acyclic : ∀ name, ¬ TransGen raw.Contains name name

/-- The same declarations in the same order. -/
structure ResolvesTo (raw : RawSchema) (schema : Schema) : Prop where
  enums : List.Forall₂ RawEnum.ResolvesTo raw.enums schema.enums
  messages : List.Forall₂ (RawMessage.ResolvesTo raw.Declares) raw.messages schema.messages

theorem WellFormed.exists_resolvesTo {raw : RawSchema} (h : raw.WellFormed) :
    ∃ schema, raw.ResolvesTo schema := by
  obtain ⟨enums, henums⟩ := exists_forall₂ fun decl hdecl => (h.enums decl hdecl).exists_resolvesTo
  obtain ⟨messages, hmessages⟩ :=
    exists_forall₂ fun decl hdecl => (h.messages decl hdecl).exists_resolvesTo
  exact ⟨⟨enums, messages⟩, henums, hmessages⟩

theorem Declares.mem_typeNames {raw : RawSchema} {name : String} {declared : Declared}
    (h : raw.Declares name declared) : name ∈ raw.typeNames := by
  cases h with
  | enum h _ => exact List.mem_append_left _ (List.mem_map_of_mem h)
  | message h => exact List.mem_append_right _ (List.mem_map_of_mem h)

end RawSchema

end LayeredConfig
