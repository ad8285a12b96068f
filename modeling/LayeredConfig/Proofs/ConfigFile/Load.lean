import LayeredConfig.Proofs.ConfigFile.Overlay
import LayeredConfig.Proofs.FileSystem
import LayeredConfig.Proofs.Json.Reader
import LayeredConfig.Proofs.Message.Readable
import LayeredConfig.Proofs.Yaml.Document

/-!
# Loading a document

Cleaning takes out of an object what does not fit, and still the object may not
be readable: a field may be given under both its keys, and the number that is
the key of a map entry may be spelled in a way that fits and is not read.  Then
the whole document fails.  A readable document is read, and laid over the tree.

Documents are taken to be ordered, which parsed ones are (`ordered_of_parse`,
`ordered_of_read`).
-/

namespace LayeredConfig

namespace Fields

variable {fields : Fields}

theorem mem_keys_of_mem_names {name : String} (h : name ∈ fields.names) : name ∈ fields.keys := by
  obtain ⟨field, hfield, rfl⟩ := List.mem_map.1 h
  exact List.mem_flatMap.2 ⟨field, hfield, field.label.name_mem_keys⟩

theorem Unambiguous.distinct (h : fields.Unambiguous) : fields.Distinct := by
  induction fields with
  | nil => trivial
  | plain field kind rest ih =>
    exact ⟨fun hname => h.1 _ field.name_mem_keys (mem_keys_of_mem_names hname), ih h.2⟩
  | nested field message sub rest ihsub ih | nestedList field message sub rest ihsub ih =>
    exact ⟨fun hname => h.1 _ field.name_mem_keys (mem_keys_of_mem_names hname), ihsub h.2.1,
      ih h.2.2⟩

theorem Unambiguous.addressable (h : fields.Unambiguous) : fields.Addressable := by
  induction fields with
  | nil => trivial
  | plain field kind rest ih =>
    exact ⟨fun name hname hkey => h.1 name hkey (mem_keys_of_mem_names hname), ih h.2⟩
  | nested field message sub rest ihsub ih | nestedList field message sub rest ihsub ih =>
    exact ⟨fun name hname hkey => h.1 name hkey (mem_keys_of_mem_names hname), ihsub h.2.1,
      ih h.2.2⟩

end Fields

namespace ConfigFile

theorem ordered_of_parse {format : Format} {path : FilePath} {content : String} {document : Json}
    (h : parse format path content = .ok document) : document.Ordered := by
  unfold parse at h
  cases format with
  | json =>
    cases hread : Json.parse? content with
    | none =>
      rw [hread] at h
      cases h
    | some parsed =>
      have hparsed := Json.ordered_of_parse? hread
      rw [hread] at h
      -- A null document is replaced, the others are kept.
      cases parsed with
      | null =>
        cases h
        exact Json.ordered_object_nil
      | bool | number | string | array | object =>
        cases h
        exact hparsed
  | yaml =>
    cases hread : Yaml.parse? content with
    | none =>
      rw [hread] at h
      cases h
    | some parsed =>
      have hparsed := Yaml.ordered_of_parse? hread
      rw [hread] at h
      cases parsed with
      | null =>
        cases h
        exact Json.ordered_object_nil
      | bool | number | string | array | object =>
        cases h
        exact hparsed

theorem ordered_of_read {files : FileSystem} {path : FilePath} {document : Json}
    (h : read files path = .ok document) : document.Ordered := by
  unfold read at h
  split at h
  · obtain ⟨format, -, h⟩ := bind_eq_ok_iff.1 h
    obtain ⟨node, -, h⟩ := bind_eq_ok_iff.1 h
    obtain ⟨content, -, h⟩ := bind_eq_ok_iff.1 h
    exact ordered_of_parse h
  · exact nomatch h

theorem read_of_open? {files : FileSystem} {path : FilePath} {format : Format} {text : String}
    (hformat : Format.ofPath? path = some format)
    (hopen : files.open? path = .ok (.file text.toUTF8)) :
    read files path = parse format path text := by
  rw [read, hformat, hopen]
  change ((FileSystem.textOf (.file text.toUTF8)).mapError _ >>= parse format path) = _
  rw [FileSystem.textOf_toUTF8]
  rfl

theorem read_oneFile {path : FilePath} {name text : String} {format : Format} {document : Json}
    (hformat : Format.ofPath? path = some format)
    (hopen : (FileSystem.oneFile name text).open? path = .ok (.file text.toUTF8))
    (hparse : parse format path text = .ok document) :
    read (.oneFile name text) path = .ok document := by
  rw [read_of_open? hformat hopen, hparse]

variable {message : Message} {path : FilePath} {members : Json.Members}
  {tree : Tree message.fields}

theorem merge_of_error {error : DecodeError}
    (h : message.decode (.object (message.fields.clean [] members).1) = .error error) :
    (merge message path (.object members) tree).1 = .error (.mismatch path error) := by
  unfold merge Message.clean
  dsimp only
  rw [h]

theorem merge_of_gives {file : Tree message.fields}
    (h : Gives (message.decode (.object (message.fields.clean [] members).1)) file) :
    (merge message path (.object members) tree).1 =
      (overlayTrees message tree file).mapError (.mismatch path) := by
  obtain ⟨unknown, h⟩ := h
  unfold merge Message.clean
  dsimp only
  rw [h]
  dsimp only
  cases overlayTrees message tree file with
  | error error => rfl
  | ok merged => rfl

theorem merge_eq_ok_iff_of_gives {file merged : Tree message.fields}
    (h : Gives (message.decode (.object (message.fields.clean [] members).1)) file) :
    (merge message path (.object members) tree).1 = .ok merged ↔
      overlayTrees message tree file = .ok merged := by
  rw [merge_of_gives h]
  cases overlayTrees message tree file with
  | error error => exact iff_of_false nofun nofun
  | ok tree => exact ⟨fun h => congrArg _ (Except.ok.inj h), fun h => congrArg _ (Except.ok.inj h)⟩

/-- A cleaned object is read if and only if it is readable. -/
theorem exists_gives_decode_clean_iff (message : Message)
    (hordered : (Json.object members).Ordered) :
    (∃ file, Gives (message.decode (.object (message.fields.clean [] members).1)) file) ↔
      message.fields.Readable (message.fields.clean [] members).1 := by
  obtain ⟨-, -, hfits⟩ := message.fields.cleansMembers [] members hordered
  exact (exists_congr fun _ => Message.gives_decode_object_iff).trans (exists_held_iff hfits)

/-- Where keys are unambiguous, a cleaned object that is readable is read as what is
gathered from the object as it was. -/
theorem gives_decode_clean (hkeys : message.fields.Unambiguous)
    (hordered : (Json.object members).Ordered)
    (hreadable : message.fields.Readable (message.fields.clean [] members).1) :
    Gives (message.decode (.object (message.fields.clean [] members).1))
      (Tree.gather message.fields members) := by
  obtain ⟨-, hcleaned, hfits⟩ := message.fields.cleansMembers [] members hordered
  rw [Message.gives_decode_object_iff, ← Tree.gather_clean hkeys [] hordered]
  exact held_gather hkeys hcleaned hfits hreadable

/-- When the document of a file loads, for the message types of accepted schemas.
The cleaned document is read if and only if it is readable, and where it is not
the whole file fails.  The tree that is read is laid over any tree if their merge
is addressed.  So where the message is addressable, the readable documents are
those that load. -/
theorem merge_eq_ok_iff_readable {raw : RawSchema} {schema : Schema}
    (hschema : Schema.resolve raw = .ok schema) {name : String} {message : Message}
    (hmessage : schema.messageType? name = some message) {members : Json.Members}
    (hordered : (Json.object members).Ordered) :
    ((∃ file, Gives (message.decode (.object (message.fields.clean [] members).1)) file) ↔
      message.fields.Readable (message.fields.clean [] members).1) ∧
    (¬ message.fields.Readable (message.fields.clean [] members).1 → ∀ path tree,
      ∃ error, (merge message path (.object members) tree).1 = .error (.mismatch path error)) ∧
    (∀ file, Gives (message.decode (.object (message.fields.clean [] members).1)) file →
      ∀ path tree, (merge message path (.object members) tree).1 = .ok (Tree.merge _ tree file) ↔
        Tree.Addressed _ (Tree.merge _ tree file)) ∧
    (message.fields.Addressable → ∀ path tree,
      (∃ merged, (merge message path (.object members) tree).1 = .ok merged) ↔
        message.fields.Readable (message.fields.clean [] members).1) := by
  have hdistinct := Schema.distinct_of_messageType? hschema hmessage
  have hread := exists_gives_decode_clean_iff message hordered
  have hfail : ¬ message.fields.Readable (message.fields.clean [] members).1 → ∀ path tree,
      ∃ error, (merge message path (.object members) tree).1 = .error (.mismatch path error) := by
    intro hreadable path tree
    cases hdecode : message.decode (.object (message.fields.clean [] members).1) with
    | error error => exact ⟨error, merge_of_error hdecode⟩
    | ok noted => exact absurd (hread.1 ⟨noted.1, noted.2, hdecode⟩) hreadable
  refine ⟨hread, hfail, fun file hfile path tree => ?_, fun haddressable path tree => ?_⟩
  · rw [merge_eq_ok_iff_of_gives hfile, overlayTrees_eq_merge_iff hdistinct]
  · constructor
    · rintro ⟨merged, hmerged⟩
      by_contra hreadable
      obtain ⟨error, herror⟩ := hfail hreadable path tree
      exact nomatch hmerged.symm.trans herror
    · intro hreadable
      obtain ⟨file, hfile⟩ := hread.2 hreadable
      refine ⟨Tree.merge _ tree file, (merge_eq_ok_iff_of_gives hfile).2 ?_⟩
      exact (overlayTrees_eq_merge_iff hdistinct tree file).2
        (Tree.addressed_of_addressable haddressable _)

def numberedDeclaration : RawSchema where
  messages := [{ name := "Root", fields := [⟨"port_names", "map<int32, string>", ""⟩] }]

def numberedSchema : Schema where
  enums := []
  messages := [⟨"Root", "", [⟨"port_names", .plain (.map .int32 .string), ""⟩]⟩]

def numberedMessage : Message where
  label := ⟨"Root", []⟩
  fields := .plain ⟨"port_names", []⟩ (.map .int32 .string) .nil

/-- An entry whose key is spelled with a plus sign does no harm if it is dropped for
its value. -/
theorem merge_numberedMessage :
    Schema.resolve numberedDeclaration = .ok numberedSchema ∧
      numberedSchema.messageType? "Root" = some numberedMessage ∧
      (Json.object [("portNames", .object [("+5", .bool true), ("80", .string "web")])]).Ordered ∧
      ∀ path tree, ∃ merged, (merge numberedMessage path
        (.object [("portNames", .object [("+5", .bool true), ("80", .string "web")])]) tree).1 =
          .ok merged := by
  have hschema : Schema.resolve numberedDeclaration = .ok numberedSchema := rfl
  have hmessage : numberedSchema.messageType? "Root" = some numberedMessage := rfl
  have hordered : (Json.object
      [("portNames", .object [("+5", .bool true), ("80", .string "web")])]).Ordered := by decide
  obtain ⟨-, -, -, hexact⟩ := merge_eq_ok_iff_readable hschema hmessage hordered
  refine ⟨hschema, hmessage, hordered, fun path tree => (hexact ?_ path tree).2 ?_⟩
  · decide
  · decide

/-- The entry whose key has a plus sign fits, and so it stays and fails the document; so
does a field given under both its keys. -/
theorem merge_numberedMessage_eq_error :
    Schema.resolve numberedDeclaration = .ok numberedSchema ∧
      numberedSchema.messageType? "Root" = some numberedMessage ∧
      (Json.object [("port_names", .object [("+5", .string "web")])]).Ordered ∧
      (∀ path tree, (merge numberedMessage path
        (.object [("port_names", .object [("+5", .string "web")])]) tree).1 =
          .error (.mismatch path .keyNotNumber)) ∧
      (Json.object [("portNames", .object []), ("port_names", .object [])]).Ordered ∧
      ∀ path tree, (merge numberedMessage path
        (.object [("portNames", .object []), ("port_names", .object [])]) tree).1 =
          .error (.mismatch path (.duplicateField "port_names")) :=
  ⟨rfl, rfl, by decide, fun _ _ => rfl, by decide, fun _ _ => rfl⟩

/-- Where keys are unambiguous, a document that is readable once it is cleaned loads,
and what it lays over the tree is gathered from the document as it was. -/
theorem merge_eq_merge_gather {message : Message} (hkeys : message.fields.Unambiguous)
    {members : Json.Members} (hordered : (Json.object members).Ordered)
    (hreadable : message.fields.Readable (message.fields.clean [] members).1) (path : FilePath)
    (tree : Tree message.fields) :
    (merge message path (.object members) tree).1 =
      .ok (Tree.merge _ tree (Tree.gather message.fields members)) := by
  have hfile := gives_decode_clean hkeys hordered hreadable
  rw [merge_eq_ok_iff_of_gives hfile, overlayTrees_eq_merge_iff hkeys.distinct]
  exact Tree.addressed_of_addressable hkeys.addressable _

/-- A document with an unknown member, an alias, a null and values that do not fit. -/
def sampleDocument : Json.Members :=
  [("labels", .object [("a", .bool true), ("b", .number (.int 1))]),
   ("limits", .object
    [("maxCount", .number (.int 3)), ("tags", .array [.string "x", .null, .string "y"])]),
   ("other", .string "z"), ("serviceName", .null), ("service_name", .string "svc")]

theorem merge_sampleDocument :
    sampleMessage.fields.Unambiguous ∧ (Json.object sampleDocument).Ordered ∧
      sampleMessage.fields.Readable (sampleMessage.fields.clean [] sampleDocument).1 ∧
      ∀ path, (merge sampleMessage path (.object sampleDocument)
        (none, some (none, ["w"], ()), .empty, ())).1 =
          .ok (some "svc", some (some 3, ["x", "y"], ()), SortedMap.ofList [("a", true)], ()) := by
  have hkeys : sampleMessage.fields.Unambiguous := by decide
  have hordered : (Json.object sampleDocument).Ordered := by decide
  have hreadable : sampleMessage.fields.Readable
      (sampleMessage.fields.clean [] sampleDocument).1 := by decide
  exact ⟨hkeys, hordered, hreadable, fun path =>
    merge_eq_merge_gather hkeys hordered hreadable path _⟩

end ConfigFile

end LayeredConfig
