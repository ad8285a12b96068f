import LayeredConfig.Agent.Config
import LayeredConfig.Proofs.ConfigFile.Load
import LayeredConfig.Proofs.Message.Listed

/-!
# Documents that are no objects

A string, a number and a truth value are no message, and a file that holds one
is refused.  An array is not refused for being an array.  Its items are read
by position, none of them is cleaned away, and where they fit the fields they
are laid over the tree like the members of an object.
-/

namespace LayeredConfig.ConfigFile

/-- The file at a path is refused for its document.  No part of the document is reported,
and the tree stays as it is. -/
structure Refused (message : Message) (files : FileSystem) (path : FilePath)
    (tree : Tree message.fields) (error : DecodeError) : Prop where
  load_eq : load message files path tree = (.error (.mismatch path error), [])
  loadOrSkip_eq : ∀ given, files.absolute given = .ok path → files.isFile path = true →
    loadOrSkip message files given tree = (tree, [.failed (.mismatch path error)])

variable {message : Message} {files : FileSystem} {path : FilePath} {document : Json}
  {tree : Tree message.fields}

theorem clean_of_ne_object (hobject : ∀ members, document ≠ .object members) :
    message.clean document = (document, []) := by
  cases document with
  | object members => exact absurd rfl (hobject members)
  | null | bool | number | string | array => rfl

theorem refused_of_decode_eq_error {error : DecodeError}
    (hread : read files path = .ok document) (hobject : ∀ members, document ≠ .object members)
    (hdecode : message.decode document = .error error) :
    Refused message files path tree error := by
  have hmerge : merge message path document tree = (.error (.mismatch path error), []) := by
    simp [merge, clean_of_ne_object hobject, hdecode]
  have hload : load message files path tree = (.error (.mismatch path error), []) := by
    simp [load, hread, hmerge]
  refine ⟨hload, ?_⟩
  intro given habsolute hfile
  simp [loadOrSkip, habsolute, hfile, hload]

theorem load_eq_ok_iff_of_gives {file merged : Tree message.fields}
    (hread : read files path = .ok document) (hobject : ∀ members, document ≠ .object members)
    (hfile : Gives (message.decode document) file) :
    (load message files path tree).1 = .ok merged ↔
      overlayTrees message tree file = .ok merged := by
  obtain ⟨unknown, hdecode⟩ := hfile
  simp only [load, hread, merge, clean_of_ne_object hobject, hdecode]
  cases overlayTrees message tree file with
  | error error => simp
  | ok laid => simp

theorem decode_of_ne_object_of_ne_array (message : Message)
    (hobject : ∀ members, document ≠ .object members)
    (harray : ∀ items, document ≠ .array items) :
    message.decode document =
      .error (.wrongType (Found.ofJson document) ("struct " ++ message.label.name)) := by
  cases document with
  | object members => exact absurd rfl (hobject members)
  | array items => exact absurd rfl (harray items)
  | null | bool | number | string => rfl

/-- What a file does whose document is no object, for the message types of accepted
schemas.  It is refused if the document is no array, and if it is an array that cannot be
read by position, as one with more items than there are fields.  An array that can be read
is laid over the tree if the two merge to an addressed one. -/
theorem load_of_ne_object {raw : RawSchema} {schema : Schema}
    (hschema : Schema.resolve raw = .ok schema) {name : String} {message : Message}
    (hmessage : schema.messageType? name = some message) {files : FileSystem} {path : FilePath}
    {document : Json} (hread : read files path = .ok document)
    (hobject : ∀ members, document ≠ .object members) (tree : Tree message.fields) :
    ((∀ items, document ≠ .array items) → Refused message files path tree
      (.wrongType (Found.ofJson document) ("struct " ++ message.label.name))) ∧
    ∀ items, document = .array items →
      ((∀ file, ¬ Listed message.fields [] 0 items file) →
        ∃ error, Refused message files path tree error) ∧
      (message.fields.toList.length < items.length →
        ∃ error, Refused message files path tree error) ∧
      ∀ file, Listed message.fields [] 0 items file →
        ((load message files path tree).1 = .ok (Tree.merge _ tree file) ↔
          Tree.Addressed _ (Tree.merge _ tree file)) := by
  have hdistinct := Schema.distinct_of_messageType? hschema hmessage
  refine ⟨fun harray => ?_, ?_⟩
  · have hdecode := decode_of_ne_object_of_ne_array message hobject harray
    exact refused_of_decode_eq_error hread hobject hdecode
  · rintro items rfl
    have hrefused : (∀ file, ¬ Listed message.fields [] 0 items file) →
        ∃ error, Refused message files path tree error := by
      intro hunlisted
      cases hdecode : message.decode (.array items) with
      | error error => exact ⟨error, refused_of_decode_eq_error hread hobject hdecode⟩
      | ok noted =>
        have hgives : Gives (message.decode (.array items)) noted.1 := ⟨noted.2, hdecode⟩
        exact absurd (Message.gives_decode_array_iff.1 hgives) (hunlisted noted.1)
    refine ⟨hrefused, fun hlength => ?_, fun file hfile => ?_⟩
    · exact hrefused fun file hfile => absurd hfile.length_le (Nat.not_le.2 hlength)
    · rw [load_eq_ok_iff_of_gives hread hobject (Message.gives_decode_array_iff.2 hfile)]
      exact overlayTrees_eq_merge_iff hdistinct tree file

/-- The items of an array go to the fields in order, those of a nested message as well. -/
theorem load_sampleMessage_array :
    Schema.resolve sampleDeclaration = .ok sampleSchema ∧
      sampleSchema.messageType? "Root" = some sampleMessage ∧
      read (.oneFile "c.json" "[\"svc\", [null, [\"x\"]]]") ⟨"/c.json"⟩ =
        .ok (.array [.string "svc", .array [.null, .array [.string "x"]]]) ∧
      ∀ tree,
        (load sampleMessage (.oneFile "c.json" "[\"svc\", [null, [\"x\"]]]") ⟨"/c.json"⟩ tree).1 =
          .ok (Tree.merge _ tree (some "svc", some (none, ["x"], ()), SortedMap.empty, ())) := by
  have hschema : Schema.resolve sampleDeclaration = .ok sampleSchema := rfl
  have hmessage : sampleSchema.messageType? "Root" = some sampleMessage := rfl
  have hread : read (.oneFile "c.json" "[\"svc\", [null, [\"x\"]]]") ⟨"/c.json"⟩ =
      .ok (.array [.string "svc", .array [.null, .array [.string "x"]]]) :=
    read_oneFile rfl rfl (by cbv)
  refine ⟨hschema, hmessage, hread, fun tree => ?_⟩
  have hload := (load_of_ne_object hschema hmessage hread (by simp) tree).2 _ rfl
  refine (hload.2.2 _ ?_).2 (Tree.addressed_of_addressable (by decide) _)
  exact ⟨rfl, ⟨[], rfl⟩, rfl⟩

/-- An array of one string names the service of the agent, without a word but that the file
was loaded. -/
theorem load_agent_array :
    read (.oneFile "c.json" "[\"svc\"]") ⟨"/c.json"⟩ = .ok (.array [.string "svc"]) ∧
      load Agent.config (.oneFile "c.json" "[\"svc\"]") ⟨"/c.json"⟩ (Tree.empty _) =
        (.ok (some "svc", none, none, [], none, SortedMap.empty, ()), [.loaded ⟨"/c.json"⟩]) := by
  have hread : read (.oneFile "c.json" "[\"svc\"]") ⟨"/c.json"⟩ = .ok (.array [.string "svc"]) :=
    read_oneFile rfl rfl (by cbv)
  refine ⟨hread, ?_⟩
  have hmerge : merge Agent.config ⟨"/c.json"⟩ (.array [.string "svc"]) (Tree.empty _) =
      (.ok (some "svc", none, none, [], none, SortedMap.empty, ()), []) := rfl
  simp [load, hread, hmerge]

end LayeredConfig.ConfigFile
