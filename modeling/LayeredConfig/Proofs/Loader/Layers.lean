import LayeredConfig.Loader
import LayeredConfig.Proofs.ConfigFile.Load
import LayeredConfig.Proofs.Message.Layers

/-!
# How loading ends

Loading ends in one of three ways.  No file is asked for (`Unfiled`); the file
is laid over the tree before the other layers (`Applied`); or the file is not
applied, and then the layers are run as if there were none (`Skipped`).  A file
is never applied in part: what is reported of it on the way are its misfits and
unknown members, and only the last event tells whether it counts.
-/

namespace LayeredConfig

namespace Event

def IsDetail : Event → Prop
  | mistyped _ _ => True
  | unknownKey _ _ => True
  | _ => False

def IsRefusal : Event → Prop
  | unresolved _ => True
  | missing _ => True
  | failed _ => True
  | _ => False

theorem IsRefusal.level_eq {event : Event} (h : event.IsRefusal) : event.level = .warn := by
  cases event with
  | unresolved | missing | failed => rfl
  | mistyped | unknownKey | loaded | alreadyInitialized => cases h

end Event

namespace ConfigFile

variable {message : Message} {files : FileSystem} {path : FilePath} {document : Json}
  {tree : Tree message.fields}

/-- What laying a document over a tree comes to, and that all it reports are details. -/
theorem merge_cases (message : Message) (path : FilePath) (document : Json)
    (tree : Tree message.fields) :
    ∃ details, (∀ event ∈ details, event.IsDetail) ∧
      ((∃ error, merge message path document tree = (.error error, details)) ∨
        ∃ file merged, Gives (message.decode (message.clean document).1) file ∧
          overlayTrees message tree file = .ok merged ∧
          merge message path document tree = (.ok merged, details)) := by
  generalize hclean : message.clean document = cleaned
  obtain ⟨kept, dropped⟩ := cleaned
  have hdropped : ∀ event ∈ dropped.map (Event.mistyped · path), event.IsDetail := by
    simp [Event.IsDetail]
  cases hdecode : message.decode kept with
  | error error =>
    refine ⟨_, hdropped, Or.inl ⟨.mismatch path error, ?_⟩⟩
    simp [merge, hclean, hdecode]
  | ok noted =>
    obtain ⟨file, unknown⟩ := noted
    have hdetails : ∀ event ∈ dropped.map (Event.mistyped · path) ++
        unknown.map (Event.unknownKey · path), event.IsDetail := by
      simp only [List.forall_mem_append]
      exact ⟨hdropped, by simp [Event.IsDetail]⟩
    refine ⟨_, hdetails, ?_⟩
    cases hmerged : overlayTrees message tree file with
    | error error =>
      refine Or.inl ⟨.mismatch path error, ?_⟩
      simp [merge, hclean, hdecode, hmerged]
    | ok merged =>
      refine Or.inr ⟨file, merged, gives_ok_iff.2 rfl, hmerged, ?_⟩
      simp [merge, hclean, hdecode, hmerged]

/-- A file was read and laid over a tree. -/
structure LaidOver (message : Message) (files : FileSystem) (path : FilePath)
    (tree file merged : Tree message.fields) : Prop where
  isFile : files.isFile path = true
  read_eq : ∃ document, read files path = .ok document ∧
    Gives (message.decode (message.clean document).1) file
  overlayTrees_eq : overlayTrees message tree file = .ok merged

theorem loadOrSkip_cases (message : Message) (files : FileSystem) (given : FilePath)
    (tree : Tree message.fields) :
    ∃ details, (∀ event ∈ details, event.IsDetail) ∧
      ((∃ last, last.IsRefusal ∧
          loadOrSkip message files given tree = (tree, details ++ [last])) ∨
        ∃ path file merged, files.absolute given = .ok path ∧
          LaidOver message files path tree file merged ∧
          loadOrSkip message files given tree = (merged, details ++ [.loaded path])) := by
  cases habsolute : files.absolute given with
  | error error =>
    refine ⟨[], nofun, Or.inl ⟨.unresolved (.unresolved given error), trivial, ?_⟩⟩
    simp [loadOrSkip, habsolute]
  | ok path =>
    cases hfile : files.isFile path with
    | false =>
      refine ⟨[], nofun, Or.inl ⟨.missing path, trivial, ?_⟩⟩
      simp [loadOrSkip, habsolute, hfile]
    | true =>
      cases hread : read files path with
      | error error =>
        refine ⟨[], nofun, Or.inl ⟨.failed error, trivial, ?_⟩⟩
        simp [loadOrSkip, habsolute, hfile, load, hread]
      | ok document =>
        obtain ⟨details, hdetails, hmerge⟩ := merge_cases message path document tree
        refine ⟨details, hdetails, ?_⟩
        rcases hmerge with ⟨error, hmerge⟩ | ⟨file, merged, hgives, hlaid, hmerge⟩
        · refine Or.inl ⟨.failed error, trivial, ?_⟩
          simp [loadOrSkip, habsolute, hfile, load, hread, hmerge]
        · refine Or.inr ⟨path, file, merged, rfl, ⟨hfile, ⟨document, hread, hgives⟩, hlaid⟩, ?_⟩
          simp [loadOrSkip, habsolute, hfile, load, hread, hmerge]

end ConfigFile

namespace Loader

variable {message : Message}

/-- No file is asked for, and whatever the file system holds, only the environment and the
defaults are laid over the tree. -/
structure Unfiled (loader : Loader message) (tree : Tree message.fields) : Prop where
  file_eq : loader.file = .none ∨
    (loader.file = .environment ∧ loader.env.text? loader.fileVariable = none)
  loadOnto_eq : ∀ files, loader.loadOnto files tree =
    (tree.overlay loader.env loader.stem loader.defaults, [])

/-- The file at `path` is laid over the tree, then the environment and the defaults.  The
last event says that it was loaded, and the others are details. -/
structure Applied (loader : Loader message) (files : FileSystem) (tree : Tree message.fields)
    (path : FilePath) (file merged : Tree message.fields) : Prop where
  path_eq : ∃ given, loader.filePath? = some given ∧ files.absolute given = .ok path
  laidOver : ConfigFile.LaidOver message files path tree file merged
  loadOnto_eq : ∃ details, (∀ event ∈ details, event.IsDetail) ∧ loader.loadOnto files tree =
    (merged.overlay loader.env loader.stem loader.defaults, details ++ [.loaded path])

/-- There is a file that is not applied: the tree is that of the same loader without a file,
the last event is a warning that says so, and the others are details. -/
structure Skipped (loader : Loader message) (files : FileSystem) (tree : Tree message.fields) :
    Prop where
  isSome_filePath? : loader.filePath?.isSome
  tree_eq : (loader.loadOnto files tree).1 =
    (({ loader with file := .none } : Loader message).loadOnto files tree).1
  events_eq : ∃ details last, (∀ event ∈ details, event.IsDetail) ∧ last.IsRefusal ∧
    last.level = .warn ∧ (loader.loadOnto files tree).2 = details ++ [last]

/-- The ways for loading to end. -/
inductive Outcome where
  | unfiled
  | applied
  | skipped

def Ends (loader : Loader message) (files : FileSystem) (tree : Tree message.fields) :
    Outcome → Prop
  | .unfiled => loader.Unfiled tree
  | .applied => ∃ path file merged, loader.Applied files tree path file merged
  | .skipped => loader.Skipped files tree

variable {loader : Loader message} {files : FileSystem} {tree : Tree message.fields}

theorem filePath?_eq_none_iff :
    loader.filePath? = none ↔ loader.file = .none ∨
      (loader.file = .environment ∧ loader.env.text? loader.fileVariable = none) := by
  cases hfile : loader.file <;> simp [filePath?, hfile]

theorem Unfiled.filePath?_eq (h : loader.Unfiled tree) : loader.filePath? = none :=
  filePath?_eq_none_iff.2 h.file_eq

theorem unfiled_of_filePath? (h : loader.filePath? = none) : loader.Unfiled tree := by
  refine ⟨filePath?_eq_none_iff.1 h, ?_⟩
  intro files
  simp [loadOnto, h]

theorem Applied.filePath?_ne {path : FilePath} {file merged : Tree message.fields}
    (h : loader.Applied files tree path file merged) : loader.filePath? ≠ none := by
  obtain ⟨given, hgiven, -⟩ := h.path_eq
  simp [hgiven]

theorem Skipped.filePath?_ne (h : loader.Skipped files tree) : loader.filePath? ≠ none :=
  Option.isSome_iff_ne_none.1 h.isSome_filePath?

/-- The last event tells a file that was applied from one that was not. -/
theorem Applied.not_skipped {path : FilePath} {file merged : Tree message.fields}
    (h : loader.Applied files tree path file merged) : ¬ loader.Skipped files tree := by
  intro hskipped
  obtain ⟨details, -, hloaded⟩ := h.loadOnto_eq
  obtain ⟨others, last, -, hrefusal, -, hevents⟩ := hskipped.events_eq
  have hlast : others ++ [last] = details ++ [.loaded path] := by
    rw [← hevents, hloaded]
  have heq : last = .loaded path := by
    simpa using congrArg List.getLast? hlast
  subst heq
  exact hrefusal

theorem applied_or_skipped {given : FilePath} (h : loader.filePath? = some given)
    (files : FileSystem) (tree : Tree message.fields) :
    loader.Ends files tree .applied ∨ loader.Ends files tree .skipped := by
  obtain ⟨details, hdetails, hcases⟩ := ConfigFile.loadOrSkip_cases message files given tree
  rcases hcases with ⟨last, hrefusal, hload⟩ | ⟨path, file, merged, habsolute, hlaid, hload⟩
  · right
    have hskip : loader.loadOnto files tree =
        (tree.overlay loader.env loader.stem loader.defaults, details ++ [last]) := by
      simp [loadOnto, h, hload]
    exact ⟨by simp [h], by rw [hskip]; rfl,
      details, last, hdetails, hrefusal, hrefusal.level_eq, by rw [hskip]⟩
  · left
    exact ⟨path, file, merged, ⟨given, h, habsolute⟩, hlaid, details, hdetails,
      by simp [loadOnto, h, hload]⟩

theorem existsUnique_ends (loader : Loader message) (files : FileSystem)
    (tree : Tree message.fields) : ∃! outcome, loader.Ends files tree outcome := by
  cases hpath : loader.filePath? with
  | none =>
    refine ⟨.unfiled, unfiled_of_filePath? hpath, ?_⟩
    rintro (_ | _ | _) hends
    · rfl
    · obtain ⟨path, file, merged, happlied⟩ := hends
      exact absurd hpath happlied.filePath?_ne
    · exact absurd hpath (Skipped.filePath?_ne hends)
  | some given =>
    have hfiled : ¬ loader.Ends files tree .unfiled := by
      intro hends
      simp [Unfiled.filePath?_eq hends] at hpath
    rcases applied_or_skipped hpath files tree with happlied | hskipped
    · refine ⟨.applied, happlied, ?_⟩
      obtain ⟨path, file, merged, happlied⟩ := happlied
      rintro (_ | _ | _) hends
      · exact absurd hends hfiled
      · rfl
      · exact absurd hends happlied.not_skipped
    · refine ⟨.skipped, hskipped, ?_⟩
      rintro (_ | _ | _) hends
      · exact absurd hends hfiled
      · obtain ⟨path, file, merged, happlied⟩ := hends
        exact absurd hskipped happlied.not_skipped
      · rfl

/-- Loading through all layers, for the message types of accepted schemas.  It ends in
exactly one of the three ways.  A file that is applied leads to its merge with the tree if
that merge is addressed, and then every setting comes from the first of the four tiers that
has it: the file, the tree, the environment, the defaults. -/
theorem loadOnto_layers {raw : RawSchema} {schema : Schema}
    (hschema : Schema.resolve raw = .ok schema) {name : String} {message : Message}
    (hmessage : schema.messageType? name = some message) (loader : Loader message)
    (files : FileSystem) (tree : Tree message.fields) :
    (∃! outcome, loader.Ends files tree outcome) ∧
    ∀ path file merged, loader.Applied files tree path file merged →
      (merged = Tree.merge _ tree file ↔ Tree.Addressed _ (Tree.merge _ tree file)) ∧
      (Tree.Addressed _ (Tree.merge _ tree file) →
        ∀ (target : Fields) (way : Way message.fields target),
          ∃ reached, way.reach? (loader.loadOnto files tree).1 = some reached ∧
            ∀ (field : Field) (place : Place target field),
              field.content.Layered loader.env (way.stem loader.stem ++ field.label.envSuffix)
                (place.held (way.reach? file)) (place.held (way.reach? tree))
                (place.held (loader.defaults.bind way.reach?)) (reached.slot place)) := by
  have hdistinct := Schema.distinct_of_messageType? hschema hmessage
  refine ⟨loader.existsUnique_ends files tree, ?_⟩
  intro path file merged happlied
  have hexact : merged = Tree.merge _ tree file ↔ Tree.Addressed _ (Tree.merge _ tree file) := by
    rw [← ConfigFile.overlayTrees_eq_merge_iff hdistinct, happlied.laidOver.overlayTrees_eq,
      Except.ok.injEq]
  refine ⟨hexact, fun haddressed target way => ?_⟩
  obtain ⟨details, -, hload⟩ := happlied.loadOnto_eq
  rw [hload, hexact.2 haddressed]
  exact Tree.overlay_merge_layers tree file loader.env loader.stem loader.defaults way

def withText (text : String) : FileSystem := .oneFile "c.json" text

theorem absolute_withText (text : String) :
    (withText text).absolute ⟨"/c.json"⟩ = .ok ⟨"/c.json"⟩ := by
  have hempty : (withText "").absolute ⟨"/c.json"⟩ = .ok ⟨"/c.json"⟩ := by decide +kernel
  exact hempty

theorem open?_withText (text : String) :
    (withText text).open? ⟨"/c.json"⟩ = .ok (.file text.toUTF8) := rfl

theorem isFile_withText (text : String) : (withText text).isFile ⟨"/c.json"⟩ = true := by
  simp [FileSystem.isFile, open?_withText]

theorem read_withText {text : String} {document : Json}
    (h : ConfigFile.parse .json ⟨"/c.json"⟩ text = .ok document) :
    ConfigFile.read (withText text) ⟨"/c.json"⟩ = .ok document := by
  have hformat : Format.ofPath? ⟨"/c.json"⟩ = some .json := by decide +kernel
  exact ConfigFile.read_oneFile hformat (open?_withText text) h

def ofFile (env : Environment) (defaults : Option (Tree message.fields)) : Loader message where
  file := .path ⟨"/c.json"⟩
  env := env
  defaults := defaults

theorem loadOnto_ofFile {text : String} {document : Json} {merged : Tree message.fields}
    (hparse : ConfigFile.parse .json ⟨"/c.json"⟩ text = .ok document)
    (hmerge : ConfigFile.merge message ⟨"/c.json"⟩ document tree = (.ok merged, []))
    (env : Environment) (defaults : Option (Tree message.fields)) :
    (ofFile env defaults).loadOnto (withText text) tree =
      (merged.overlay env "HT_" defaults, [.loaded ⟨"/c.json"⟩]) := by
  simp [loadOnto, ofFile, filePath?, ConfigFile.loadOrSkip, absolute_withText, isFile_withText,
    ConfigFile.load, read_withText hparse, hmerge]

/-- A text that sets a name, a list of tags and a label. -/
def sampleText : String :=
  "\x7b\"labels\": \x7b\"a\": true\x7d, \"limits\": \x7b\"tags\": [\"file\"]\x7d, " ++
    "\"service_name\": \"file\"\x7d"

def sampleValue : Json :=
  .object [("labels", .object [("a", .bool true)]),
    ("limits", .object [("tags", .array [.string "file"])]), ("service_name", .string "file")]

theorem parse_sampleText : ConfigFile.parse .json ⟨"/c.json"⟩ sampleText = .ok sampleValue := by
  cbv

def labels (entries : List (String × Bool)) : SortedMap String Bool := .ofList entries

def sampleFile : Tree ConfigFile.sampleMessage.fields :=
  (some "file", some (none, ["file"], ()), labels [("a", true)], ())

def sampleTree : Tree ConfigFile.sampleMessage.fields :=
  (some "tree", some (none, ["tree"], ()), labels [("a", false), ("b", false)], ())

def sampleMerged : Tree ConfigFile.sampleMessage.fields :=
  (some "file", some (none, ["file"], ()), labels [("a", true), ("b", false)], ())

/-- The loader of the text, with a variable for what neither the file nor the tree sets, and
defaults for all settings. -/
def sampleLoader : Loader ConfigFile.sampleMessage :=
  ofFile (.ofList [("HT_LIMITS_MAX_COUNT", "+9"), ("HT_LIMITS_TAGS", "env")])
    (some (some "default", some (some 1, [], ()), labels [("b", true), ("c", true)], ()))

theorem applied_sampleText :
    sampleLoader.Applied (withText sampleText) sampleTree ⟨"/c.json"⟩ sampleFile sampleMerged := by
  have hgives : Gives (ConfigFile.sampleMessage.decode (ConfigFile.sampleMessage.clean
      sampleValue).1) sampleFile := ⟨[], rfl⟩
  have hread := read_withText parse_sampleText
  exact ⟨⟨_, rfl, absolute_withText _⟩, ⟨isFile_withText _, ⟨_, hread, hgives⟩, rfl⟩,
    [], nofun, loadOnto_ofFile parse_sampleText rfl _ _⟩

/-- For a message without a clash of keys, an applied file is always the first tier.  One that
sets a name, tags and a label wins over a tree that sets them as well, which keeps its other
label; the count comes from the environment, and a third label from the defaults. -/
theorem loadOnto_sampleMessage :
    Schema.resolve ConfigFile.sampleDeclaration = .ok ConfigFile.sampleSchema ∧
      ConfigFile.sampleSchema.messageType? "Root" = some ConfigFile.sampleMessage ∧
      (∀ (loader : Loader ConfigFile.sampleMessage) (files : FileSystem)
        (tree : Tree ConfigFile.sampleMessage.fields),
        (∃! outcome, loader.Ends files tree outcome) ∧
        ∀ path file merged, loader.Applied files tree path file merged →
          merged = Tree.merge _ tree file) ∧
      sampleLoader.Applied (withText sampleText) sampleTree ⟨"/c.json"⟩ sampleFile sampleMerged ∧
      sampleLoader.loadOnto (withText sampleText) sampleTree =
        ((some "file", some (some 9, ["file"], ()),
          labels [("a", true), ("b", false), ("c", true)], ()), [.loaded ⟨"/c.json"⟩]) := by
  have hschema : Schema.resolve ConfigFile.sampleDeclaration = .ok ConfigFile.sampleSchema := rfl
  have hmessage : ConfigFile.sampleSchema.messageType? "Root" = some ConfigFile.sampleMessage :=
    rfl
  refine ⟨hschema, hmessage, fun loader files tree => ?_, applied_sampleText, ?_⟩
  · obtain ⟨hends, hlayers⟩ := loadOnto_layers hschema hmessage loader files tree
    refine ⟨hends, fun path file merged happlied => ?_⟩
    exact (hlayers path file merged happlied).1.2 (Tree.addressed_of_addressable (by decide) _)
  · exact (loadOnto_ofFile parse_sampleText rfl _ _).trans rfl

/-- The schema of the message is accepted, and a file that sets nothing is loaded without a
warning.  Still the value of the second field has moved to the first. -/
theorem loadOnto_ambiguousMessage :
    Schema.resolve ConfigFile.ambiguousDeclaration = .ok ConfigFile.ambiguousSchema ∧
      ConfigFile.ambiguousSchema.messageType? "Root" = some ConfigFile.ambiguousMessage ∧
      (ofFile .empty none : Loader ConfigFile.ambiguousMessage).loadOnto (withText "\x7b\x7d")
          (none, some "x", ()) =
        ((some "x", none, ()), [.loaded ⟨"/c.json"⟩]) := by
  refine ⟨rfl, rfl, ?_⟩
  have hmerge : ConfigFile.merge ConfigFile.ambiguousMessage ⟨"/c.json"⟩ (.object [])
      (none, some "x", ()) = (.ok (some "x", none, ()), []) := rfl
  exact (loadOnto_ofFile (by cbv) hmerge _ _).trans rfl

end Loader

end LayeredConfig
