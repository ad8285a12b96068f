import LayeredConfig.Proofs.ConfigFile.Load
import LayeredConfig.Proofs.Message.Respelled

/-!
# Files that spell keys differently

Two files whose documents differ only in the spelling of keys load alike: neither is
loaded, or both lay the same over a tree; and as many values are left out, and as many
keys unknown, in the one as in the other.
-/

namespace LayeredConfig

namespace Event

def isMistyped : Event → Bool
  | mistyped _ _ => true
  | _ => false

def isUnknownKey : Event → Bool
  | unknownKey _ _ => true
  | _ => false

end Event

namespace ConfigFile

variable {message : Message} {path : FilePath} {members : Json.Members}
  {tree : Tree message.fields}

theorem countP_isMistyped_merge :
    (merge message path (.object members) tree).2.countP Event.isMistyped =
      (message.fields.clean [] members).2.length := by
  have hdropped : ∀ dropped : List Mistyped,
      (dropped.map fun value => Event.mistyped value path).countP Event.isMistyped =
        dropped.length := by
    intro dropped
    simp [List.countP_map, Function.comp_def, Event.isMistyped]
  have hunknown : ∀ unknown : List Json.Path,
      (unknown.map fun key => Event.unknownKey key path).countP Event.isMistyped = 0 := by
    intro unknown
    simp [Event.isMistyped]
  unfold merge Message.clean
  dsimp only
  split
  · exact hdropped _
  · split <;> exact List.countP_append.trans (by rw [hdropped, hunknown, Nat.add_zero])

theorem countP_isUnknownKey_merge_of_error {error : DecodeError}
    (h : message.decode (.object (message.fields.clean [] members).1) = .error error) :
    (merge message path (.object members) tree).2.countP Event.isUnknownKey = 0 := by
  unfold merge Message.clean
  dsimp only
  rw [h]
  simp [Event.isUnknownKey]

theorem countP_isUnknownKey_merge_of_ok {file : Tree message.fields} {unknown : List Json.Path}
    (h : message.decode (.object (message.fields.clean [] members).1) = .ok (file, unknown)) :
    (merge message path (.object members) tree).2.countP Event.isUnknownKey = unknown.length := by
  have hevents : ∀ dropped : List Mistyped,
      ((dropped.map fun value => Event.mistyped value path) ++
        unknown.map fun key => Event.unknownKey key path).countP Event.isUnknownKey =
          unknown.length := by
    intro dropped
    simp [List.countP_map, Function.comp_def, Event.isUnknownKey]
  unfold merge Message.clean
  dsimp only
  rw [h]
  dsimp only
  split <;> exact hevents _

section Load

variable {files : FileSystem} {document : Json} (hread : read files path = .ok document)

include hread

theorem load_fst_of_read :
    (load message files path tree).1 = (merge message path document tree).1 := by
  rw [load, hread]
  dsimp only
  split <;> rename_i hmerge <;> rw [hmerge]

/-- The events of loading are those of the document, and that the file was applied. -/
theorem countP_load_of_read {p : Event → Bool} (hp : p (.loaded path) = false) :
    (load message files path tree).2.countP p = (merge message path document tree).2.countP p := by
  rw [load, hread]
  dsimp only
  split <;> rename_i hmerge <;> rw [hmerge]
  simp [hp]

end Load

/-- Two loadings that fail together or come to the same, and that leave out as many values
and know as many keys. -/
structure LoadAlike {α : Type} (loading loading' : Logged (Except ConfigError α)) : Prop where
  result : ((∃ error, loading.1 = .error error) ∧ ∃ error, loading'.1 = .error error) ∨
    ∃ loaded, loading.1 = .ok loaded ∧ loading'.1 = .ok loaded
  mistyped : loading.2.countP Event.isMistyped = loading'.2.countP Event.isMistyped
  unknownKey : loading.2.countP Event.isUnknownKey = loading'.2.countP Event.isUnknownKey

theorem exists_decode_eq_error (hordered : (Json.object members).Ordered)
    (hreadable : ¬ message.fields.Readable (message.fields.clean [] members).1) :
    ∃ error, message.decode (.object (message.fields.clean [] members).1) = .error error := by
  cases hdecode : message.decode (.object (message.fields.clean [] members).1) with
  | error error => exact ⟨error, rfl⟩
  | ok noted =>
    have hgives := (exists_gives_decode_clean_iff message hordered).1 ⟨noted.1, noted.2, hdecode⟩
    exact absurd hgives hreadable

variable {members' : Json.Members} (hkeys : message.fields.Unambiguous)
  (hordered : (Json.object members).Ordered) (hordered' : (Json.object members').Ordered)
  (hrespells : message.fields.Respells members members')

include hkeys hordered hordered' hrespells

theorem merge_respelled (path path' : FilePath) (tree : Tree message.fields) :
    LoadAlike (merge message path (.object members) tree)
      (merge message path' (.object members') tree) := by
  obtain ⟨hcleaned, hdropped⟩ := Fields.respells_clean hkeys hordered hordered' hrespells
  have hmistyped : (merge message path (.object members) tree).2.countP Event.isMistyped =
      (merge message path' (.object members') tree).2.countP Event.isMistyped := by
    rw [countP_isMistyped_merge, countP_isMistyped_merge, hdropped]
  by_cases hreadable : message.fields.Readable (message.fields.clean [] members).1
  · have hreadable' := hcleaned.readable_iff.1 hreadable
    obtain ⟨unknown, hdecode⟩ := gives_decode_clean hkeys hordered hreadable
    obtain ⟨unknown', hdecode'⟩ := gives_decode_clean hkeys hordered' hreadable'
    have hunknown : unknown.length = unknown'.length := by
      have hlength := Fields.length_unknowns_eq
        (message.fields.cleansMembers [] members hordered).2.1
        (message.fields.cleansMembers [] members' hordered').2.1 hcleaned
      rwa [← Message.map_places_noted hdecode, ← Message.map_places_noted hdecode',
        List.length_map, List.length_map] at hlength
    refine ⟨Or.inr ⟨_, merge_eq_merge_gather hkeys hordered hreadable path tree, ?_⟩, hmistyped, ?_⟩
    · rw [merge_eq_merge_gather hkeys hordered' hreadable' path' tree,
        Tree.gather_respelled hkeys hordered hordered' hrespells]
    · rw [countP_isUnknownKey_merge_of_ok hdecode, countP_isUnknownKey_merge_of_ok hdecode',
        hunknown]
  · obtain ⟨error, hdecode⟩ := exists_decode_eq_error hordered hreadable
    obtain ⟨error', hdecode'⟩ :=
      exists_decode_eq_error hordered' (mt hcleaned.readable_iff.2 hreadable)
    refine ⟨Or.inl ⟨⟨_, merge_of_error hdecode⟩, _, merge_of_error hdecode'⟩, hmistyped, ?_⟩
    rw [countP_isUnknownKey_merge_of_error hdecode, countP_isUnknownKey_merge_of_error hdecode']

/-- Where keys are unambiguous, two objects that differ only in the spelling of keys are laid
over a tree with the same result, or both are not; and as many values are left out, and as
many keys are unknown.  The same goes for files that hold them. -/
theorem load_respelled (tree : Tree message.fields) :
    (∀ path path', LoadAlike (merge message path (.object members) tree)
      (merge message path' (.object members') tree)) ∧
    ∀ files files' path path', read files path = .ok (.object members) →
      read files' path' = .ok (.object members') →
        LoadAlike (load message files path tree) (load message files' path' tree) := by
  have hmerge := fun path path' =>
    merge_respelled hkeys hordered hordered' hrespells path path' tree
  refine ⟨hmerge, fun files files' path path' hread hread' => ?_⟩
  obtain ⟨hresult, hmistyped, hunknown⟩ := hmerge path path'
  refine ⟨?_, ?_, ?_⟩
  · rwa [load_fst_of_read hread, load_fst_of_read hread']
  · rwa [countP_load_of_read hread rfl, countP_load_of_read hread' rfl]
  · rwa [countP_load_of_read hread rfl, countP_load_of_read hread' rfl]

omit hkeys hordered hordered' hrespells

/-- A message with limits of its own and a list of further ones. -/
def limitedMessage : Message where
  label := ⟨"Limited", []⟩
  fields :=
    .plain ⟨"service_name", []⟩ (.leaf (.scalar .string)) <|
    .nested ⟨"own_limits", []⟩ ⟨"Limits", []⟩
      (.plain ⟨"max_count", []⟩ (.leaf (.scalar .int32)) .nil) <|
    .nestedList ⟨"more_limits", []⟩ ⟨"Limits", []⟩
      (.plain ⟨"max_count", []⟩ (.leaf (.scalar .int32)) .nil) .nil

def namedDocument : Json.Members :=
  [("more_limits", .array [.object [("max_count", .number (.int 3)), ("stray", .null)], .null,
    .object [("max_count", .string "x")]]),
   ("own_limits", .object [("max_count", .number (.int 4))]), ("service_name", .string "svc")]

def aliasedDocument : Json.Members :=
  [("moreLimits", .array [.object [("maxCount", .number (.int 3)), ("stray", .null)], .null,
    .object [("maxCount", .string "x")]]),
   ("ownLimits", .object [("maxCount", .number (.int 4))]), ("serviceName", .string "svc")]

theorem respells_aliasedDocument :
    limitedMessage.fields.Respells namedDocument aliasedDocument := by
  have hcount : ∀ {json : Json}, (Label.mk "max_count" []).Pairs Eq [("max_count", json)]
      [("maxCount", json)] := Or.inr ⟨_, _, _, _, rfl, rfl, rfl⟩
  refine ⟨Or.inr ⟨_, _, _, _, rfl, rfl, rfl⟩, Or.inr ⟨_, _, _, _, rfl, rfl, ?_⟩,
    Or.inr ⟨_, _, _, _, rfl, rfl, ?_⟩, rfl⟩
  · exact Or.inr ⟨_, _, rfl, rfl, hcount, rfl⟩
  · refine Or.inr ⟨_, _, rfl, rfl, .cons ?_ (.cons (Or.inl rfl) (.cons ?_ .nil))⟩
    · exact Or.inr ⟨_, _, rfl, rfl, Or.inr ⟨_, _, _, _, rfl, rfl, rfl⟩, rfl⟩
    · exact Or.inr ⟨_, _, rfl, rfl, hcount, rfl⟩

/-- Keys are spelled by names or by aliases in a nested message and in a list of messages. -/
theorem load_aliasedDocument :
    limitedMessage.fields.Unambiguous ∧ (Json.object namedDocument).Ordered ∧
      (Json.object aliasedDocument).Ordered ∧
      limitedMessage.fields.Respells namedDocument aliasedDocument ∧
      ∀ path path' tree, LoadAlike (merge limitedMessage path (.object namedDocument) tree)
        (merge limitedMessage path' (.object aliasedDocument) tree) := by
  have hkeys : limitedMessage.fields.Unambiguous := by decide
  have hordered : (Json.object namedDocument).Ordered := by decide
  have hordered' : (Json.object aliasedDocument).Ordered := by decide
  refine ⟨hkeys, hordered, hordered', respells_aliasedDocument, fun path path' tree => ?_⟩
  exact (load_respelled hkeys hordered hordered' respells_aliasedDocument tree).1 path path'

end ConfigFile

end LayeredConfig
