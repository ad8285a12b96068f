import LayeredConfig.Proofs.Message.Addressable
import LayeredConfig.Proofs.Message.Merge
import LayeredConfig.Proofs.Schema.Distinct

/-!
# Laying one tree over another

For the message types of accepted schemas, the route through documents is
`Tree.merge` exactly where the merged tree is addressed.  A schema can be
accepted although the camel case key of one field is the name of a later one,
and then some pair of trees cannot be merged (`Ambiguous`).
-/

namespace LayeredConfig

namespace Kind

theorem merge_self (kind : Kind) (slot : kind.Slot) : kind.merge slot slot = slot := by
  cases kind with
  | leaf type => exact Option.or_self
  | list type => exact ite_self _
  | map key value =>
    refine SortedMap.ext_find? fun k => ?_
    rw [merge, SortedMap.find?_merge, Option.or_self]

theorem merge_merge_right (kind : Kind) (below above : kind.Slot) :
    kind.merge (kind.merge below above) above = kind.merge below above := by
  cases kind with
  | leaf type => cases above <;> rfl
  | list type => cases above <;> rfl
  | map key value =>
    refine SortedMap.ext_find? fun k => ?_
    rw [merge, SortedMap.find?_merge, merge, SortedMap.find?_merge, ← Option.or_assoc,
      Option.or_self]

end Kind

namespace Tree

theorem merge_self {fields : Fields} (tree : Tree fields) : merge fields tree tree = tree := by
  induction fields with
  | nil => rfl
  | plain field kind rest ih => exact Prod.ext (kind.merge_self tree.1) (ih tree.2)
  | nested field message sub rest ihsub ih =>
    refine Prod.ext ?_ (ih tree.2)
    obtain ⟨slot, tree⟩ := tree
    cases slot with
    | none => rfl
    | some t => exact congrArg some (ihsub t)
  | nestedList field message sub rest _ ih => exact Prod.ext (ite_self _) (ih tree.2)

theorem merge_merge_right {fields : Fields} (base upper : Tree fields) :
    merge fields (merge fields base upper) upper = merge fields base upper := by
  induction fields with
  | nil => rfl
  | plain field kind rest ih =>
    exact Prod.ext (kind.merge_merge_right base.1 upper.1) (ih base.2 upper.2)
  | nested field message sub rest ihsub ih =>
    refine Prod.ext ?_ (ih base.2 upper.2)
    obtain ⟨below, base⟩ := base
    obtain ⟨above, upper⟩ := upper
    cases above with
    | none => cases below <;> rfl
    | some above =>
      cases below with
      | none => exact congrArg some (merge_self above)
      | some below => exact congrArg some (ihsub below above)
  | nestedList field message sub rest _ ih =>
    refine Prod.ext ?_ (ih base.2 upper.2)
    obtain ⟨above, upper⟩ := upper
    cases above <;> rfl

end Tree

namespace ConfigFile

/-- When the route through documents is the merge of trees, for the message
types of accepted schemas.  It is wherever the merged tree is addressed; laying
the same tree over once more then changes nothing.  So it is for all trees of a
message if and only if the message is addressable. -/
theorem overlayTrees_eq_merge_iff_addressed {raw : RawSchema} {schema : Schema}
    (hschema : Schema.resolve raw = .ok schema) {name : String} {message : Message}
    (hmessage : schema.messageType? name = some message) :
    (∀ base upper : Tree message.fields,
      overlayTrees message base upper = .ok (Tree.merge _ base upper) ↔
        Tree.Addressed _ (Tree.merge _ base upper)) ∧
    (∀ base upper : Tree message.fields, Tree.Addressed _ (Tree.merge _ base upper) →
      overlayTrees message (Tree.merge _ base upper) upper = .ok (Tree.merge _ base upper)) ∧
    ((∀ base upper : Tree message.fields,
      overlayTrees message base upper = .ok (Tree.merge _ base upper)) ↔
        message.fields.Addressable) := by
  have hdistinct := Schema.distinct_of_messageType? hschema hmessage
  refine ⟨fun base upper => overlayTrees_eq_merge_iff hdistinct base upper,
    fun base upper h => ?_, fun h => ?_, fun h base upper => ?_⟩
  · have hagain := (overlayTrees_eq_merge_iff hdistinct (Tree.merge _ base upper) upper)
    rw [Tree.merge_merge_right] at hagain
    exact hagain.2 h
  · have hfull := (overlayTrees_eq_merge_iff hdistinct _ _).1
      (h (Tree.full message.fields) (Tree.full message.fields))
    rw [Tree.merge_self] at hfull
    exact Tree.addressable_of_addressed_full hfull
  · exact (overlayTrees_eq_merge_iff hdistinct base upper).2 (Tree.addressed_of_addressable h _)

def sampleDeclaration : RawSchema where
  messages := [
    { name := "Limits", fields := [⟨"max_count", "int32", ""⟩, ⟨"tags", "repeated string", ""⟩] },
    { name := "Root", fields := [⟨"service_name", "string", ""⟩, ⟨"limits", "Limits", ""⟩,
      ⟨"labels", "map<string, bool>", ""⟩] }]

def sampleSchema : Schema where
  enums := []
  messages := [
    ⟨"Limits", "", [⟨"max_count", .plain (.leaf (.scalar .int32)), ""⟩,
      ⟨"tags", .plain (.list (.scalar .string)), ""⟩]⟩,
    ⟨"Root", "", [⟨"service_name", .plain (.leaf (.scalar .string)), ""⟩,
      ⟨"limits", .message "Limits", ""⟩, ⟨"labels", .plain (.map .string .bool), ""⟩]⟩]

def sampleMessage : Message where
  label := ⟨"Root", []⟩
  fields :=
    .plain ⟨"service_name", []⟩ (.leaf (.scalar .string)) <|
    .nested ⟨"limits", []⟩ ⟨"Limits", []⟩
      (.plain ⟨"max_count", []⟩ (.leaf (.scalar .int32)) <|
       .plain ⟨"tags", []⟩ (.list (.scalar .string)) .nil) <|
    .plain ⟨"labels", []⟩ (.map .string .bool) .nil

theorem overlayTrees_sampleMessage :
    Schema.resolve sampleDeclaration = .ok sampleSchema ∧
      sampleSchema.messageType? "Root" = some sampleMessage ∧
      ∀ base upper : Tree sampleMessage.fields,
        overlayTrees sampleMessage base upper = .ok (Tree.merge _ base upper) := by
  have hschema : Schema.resolve sampleDeclaration = .ok sampleSchema := rfl
  have hmessage : sampleSchema.messageType? "Root" = some sampleMessage := rfl
  have hexact := overlayTrees_eq_merge_iff_addressed hschema hmessage
  exact ⟨hschema, hmessage, hexact.2.2.2 (by decide)⟩

/-- A declaration in which one field's camel case key is another field's name. -/
def ambiguousDeclaration : RawSchema where
  messages := [{ name := "Root", fields := [⟨"a_1", "string", ""⟩, ⟨"a1", "string", ""⟩] }]

def ambiguousSchema : Schema where
  enums := []
  messages := [⟨"Root", "", [⟨"a_1", .plain (.leaf (.scalar .string)), ""⟩,
    ⟨"a1", .plain (.leaf (.scalar .string)), ""⟩]⟩]

def ambiguousMessage : Message where
  label := ⟨"Root", []⟩
  fields :=
    .plain ⟨"a_1", []⟩ (.leaf (.scalar .string)) <|
    .plain ⟨"a1", []⟩ (.leaf (.scalar .string)) .nil

/-- The declaration is accepted.  A tree that sets the second field moves its
value to the first, and two trees that set one field each cannot be merged. -/
theorem overlayTrees_ambiguousMessage :
    Schema.resolve ambiguousDeclaration = .ok ambiguousSchema ∧
      ambiguousSchema.messageType? "Root" = some ambiguousMessage ∧
      overlayTrees ambiguousMessage (none, none, ()) (none, some "y", ()) =
        .ok (some "y", none, ()) ∧
      overlayTrees ambiguousMessage (some "x", none, ()) (none, some "y", ()) =
        .error (.duplicateField "a_1") :=
  ⟨rfl, rfl, rfl, rfl⟩

end ConfigFile

end LayeredConfig
