import LayeredConfig.Proofs.ConfigFile.Load
import LayeredConfig.Proofs.Schema.Keys

/-!
# Which field a key of a document belongs to

Where no two fields of a message have the same tidied name, each key belongs to
one field at most, so that a document is cleaned and read field by field without
any of its values being judged by two types.  Resolution does not ask for this,
and there are accepted schemas in which a key belongs to two fields.
-/

namespace LayeredConfig.ConfigFile

/-- The fields of an accepted message share a key exactly when their names are
equal after tidying.  Where this happens in no message, and only there, all
message types are unambiguous; then a cleaned document that is readable gives each
field what it finds under its own keys in the document as it was. -/
theorem shared_key_iff_tidy {raw : RawSchema} {schema : Schema}
    (hschema : Schema.resolve raw = .ok schema) :
    (∀ decl ∈ schema.messages, ∀ field ∈ decl.fields, ∀ other ∈ decl.fields,
      (∃ key ∈ field.label.keys, key ∈ other.label.keys) ↔
        Name.tidy field.name.toList = Name.tidy other.name.toList) ∧
    ((∀ name message, schema.messageType? name = some message → message.fields.Unambiguous) ↔
      ∀ decl ∈ schema.messages, decl.TidyDistinct) ∧
    ((∀ decl ∈ schema.messages, decl.TidyDistinct) → ∀ name message,
      schema.messageType? name = some message → ∀ members, (Json.object members).Ordered →
        message.fields.Readable (message.fields.clean [] members).1 →
          Gives (message.decode (.object (message.fields.clean [] members).1))
            (Tree.gather message.fields members)) := by
  have hkeys := Schema.unambiguous_iff hschema
  refine ⟨fun decl hdecl field hfield other hother => ?_, hkeys, ?_⟩
  · have hvalid := (Schema.wellNamed_of_resolve hschema hdecl).valid
    exact Label.exists_shared_key_iff (hvalid field hfield) (hvalid other hother)
  · intro htidy name message hmessage members hordered hreadable
    exact gives_decode_clean (hkeys.2 htidy name message hmessage) hordered hreadable

theorem shared_key_sampleSchema :
    Schema.resolve sampleDeclaration = .ok sampleSchema ∧
      (∀ decl ∈ sampleSchema.messages, decl.TidyDistinct) ∧
      sampleSchema.messageType? "Root" = some sampleMessage ∧
      (Json.object sampleDocument).Ordered ∧
      sampleMessage.fields.Readable (sampleMessage.fields.clean [] sampleDocument).1 ∧
      Gives (sampleMessage.decode (.object (sampleMessage.fields.clean [] sampleDocument).1))
        (Tree.gather sampleMessage.fields sampleDocument) := by
  have hschema : Schema.resolve sampleDeclaration = .ok sampleSchema := rfl
  have htidy : ∀ decl ∈ sampleSchema.messages, decl.TidyDistinct := by decide
  have hmessage : sampleSchema.messageType? "Root" = some sampleMessage := rfl
  have hordered : (Json.object sampleDocument).Ordered := by decide
  have hreadable : sampleMessage.fields.Readable
      (sampleMessage.fields.clean [] sampleDocument).1 := by decide
  obtain ⟨-, -, hgives⟩ := shared_key_iff_tidy hschema
  exact ⟨hschema, htidy, hmessage, hordered, hreadable,
    hgives htidy "Root" sampleMessage hmessage sampleDocument hordered hreadable⟩

/-- A declaration in which the camel case key of a text is the name of a number. -/
def clashingDeclaration : RawSchema where
  messages := [{ name := "Root", fields := [⟨"a_1", "string", ""⟩, ⟨"a1", "int32", ""⟩] }]

def clashingSchema : Schema where
  enums := []
  messages := [⟨"Root", "", [⟨"a_1", .plain (.leaf (.scalar .string)), ""⟩,
    ⟨"a1", .plain (.leaf (.scalar .int32)), ""⟩]⟩]

def clashingMessage : Message where
  label := ⟨"Root", []⟩
  fields :=
    .plain ⟨"a_1", []⟩ (.leaf (.scalar .string)) <|
    .plain ⟨"a1", []⟩ (.leaf (.scalar .int32)) .nil

/-- The declaration is accepted.  The key belongs to both fields, and no value under
it survives: a number is removed because it is no text, a text because it is no
number. -/
theorem shared_key_clashingSchema :
    Schema.resolve clashingDeclaration = .ok clashingSchema ∧
      clashingSchema.messageType? "Root" = some clashingMessage ∧
      (∃ decl ∈ clashingSchema.messages, ∃ field ∈ decl.fields, ∃ other ∈ decl.fields,
        field ≠ other ∧ "a1" ∈ field.label.keys ∧ "a1" ∈ other.label.keys) ∧
      clashingMessage.clean (.object [("a1", .number (.int 5))]) =
        (.object [], [⟨[.member "a1"], "string"⟩]) ∧
      clashingMessage.clean (.object [("a1", .string "x")]) =
        (.object [], [⟨[.member "a1"], "int32"⟩]) :=
  ⟨rfl, rfl, ⟨_, .head _, _, .head _, _, .tail _ (.head _), by decide, by decide, by decide⟩,
    rfl, rfl⟩

end LayeredConfig.ConfigFile
