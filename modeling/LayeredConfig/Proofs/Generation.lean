import LayeredConfig.Generation
import LayeredConfig.Proofs.Directories
import LayeredConfig.Proofs.FilePath

/-!
# Generating code into a directory

A run of the generator that succeeds reads the schema, makes the output directory and writes
one file (`Run`).  All other files keep their content.  The schema file is among them unless it
is the output itself, and then the same run succeeds again and writes the same (`Run.again`).
The output can be the schema file if that ends in `.rs`.  Code is no schema, and so there is no
second run in that case (`Run.overwriting`).  Put together, this is the outcome of a run
(`Outcome`).
-/

namespace LayeredConfig

open FileSystem

/-- Errors that are found in the schema, before the output is looked at. -/
def GenerationError.BlamesSchema : GenerationError → Prop
  | unreadable _ _ | unparsable _ | refused _ => True
  | unwritable _ _ => False

namespace Schema

variable {files after : FileSystem} {path : FilePath} {schema : Schema} {text : String}

theorem load_eq_ok_iff : load files path = .ok schema ↔
    ∃ text, files.read path = .ok text ∧ ofText text path = .ok schema := by
  rw [load]
  cases files.read path with
  | error error => simp
  | ok text => simp

theorem load_of_read (h : files.read path = .ok text) : load files path = ofText text path := by
  rw [load, h]

theorem load_of_addsDirectories {locations : List Location}
    (h : AddsDirectories files after locations) (hload : load files path = .ok schema) :
    load after path = .ok schema := by
  obtain ⟨text, hread, htext⟩ := load_eq_ok_iff.1 hload
  exact load_eq_ok_iff.2 ⟨text, h.read hread, htext⟩

theorem blamesSchema_of_load {error : GenerationError} (h : load files path = .error error) :
    error.BlamesSchema := by
  rw [load] at h
  split at h
  · cases h
    trivial
  · rw [ofText] at h
    split at h
    · cases h
      trivial
    · split at h <;> cases h
      trivial

end Schema

/-! ## Code is no schema -/

/-- A slash begins no blank, no comment, no header and no key. -/
theorem Toml.parse?_of_slash {text : String} {cs : List Char} (h : text.toList = '/' :: cs) :
    Toml.parse? text = none := by
  rw [Toml.parse?, h]
  rfl

namespace Code

def codeOf (schema : FilePath) (options : Options) (resolved : Schema) : String :=
  generate resolved { options with sourceName := options.sourceName.or schema.fileName? }

theorem toList_generate (resolved : Schema) (options : Options) :
    ∃ cs, (generate resolved options).toList = '/' :: cs := by
  rw [generate, String.toList_ofList, moduleCode, Step.writeAll]
  exact ⟨_, rfl⟩

theorem ofText_generate (resolved : Schema) (options : Options) (path : FilePath) :
    Schema.ofText (generate resolved options) path = .error (.unparsable path) := by
  obtain ⟨cs, hcs⟩ := toList_generate resolved options
  rw [Schema.ofText, RawSchema.parse?, Toml.parse?_of_slash hcs]
  rfl

/-! ## The name of the output -/

theorem toList_fileName (schema : FilePath) :
    (fileName schema).toList = (schema.stem?.getD "schema").toList ++ ['.', 'r', 's'] := by
  rw [fileName, String.toList_append]
  rfl

theorem fileName_ne {name : String} (h : name.toList.getLast? ≠ some 's') (schema : FilePath) :
    fileName schema ≠ name := by
  rintro rfl
  exact h (by simp [toList_fileName])

theorem isName_fileName (schema : FilePath) : FilePath.IsName (fileName schema) where
  slash h := by
    rw [toList_fileName, List.mem_append] at h
    rcases h with h | h
    · cases hname : schema.fileName? with
      | none =>
        rw [FilePath.stem?, hname] at h
        exact absurd h (by decide)
      | some name =>
        rw [FilePath.stem?, hname] at h
        obtain ⟨hlast, -⟩ := FilePath.fileName?_eq_some_iff.1 hname
        have hpart := FilePath.isName_of_mem_parts (List.mem_of_getLast? hlast)
        exact hpart.slash (FilePath.toList_stem_subset name h)
    · exact absurd h (by decide)
  ne_empty := fileName_ne (by decide) schema
  ne_dot := fileName_ne (by decide) schema

/-- A schema file that ends in `.rs` shares its name with its code. -/
theorem fileName_eq_iff {schema : FilePath} {name : String} (h : schema.fileName? = some name) :
    fileName schema = name ↔ schema.extension? = some "rs" := by
  rw [fileName, FilePath.stem?, FilePath.extension?, h, Option.map_some, Option.getD_some,
    Option.bind_some]
  cases hsplit : FilePath.splitName name with
  | mk stem extension =>
    cases extension with
    | none =>
      obtain rfl := FilePath.splitName_of_none hsplit
      simp [← String.toList_inj]
    | some extension =>
      rw [FilePath.splitName_of_some hsplit, ← String.toList_inj, Option.some_inj,
        ← String.toList_inj]
      simp [eq_comm]

/-! ## A run -/

variable {files after : FileSystem} {schema directory path : FilePath} {options : Options}

/-- A schema at fault is found before anything is written. -/
theorem generateFile_of_load {error : GenerationError}
    (h : Schema.load files schema = .error error)
    (directory : FilePath) (options : Options) :
    generateFile files schema directory options = (.error error, files) := by
  rw [generateFile, h]

theorem load_of_generateFile {error : GenerationError} (hblame : error.BlamesSchema)
    (h : generateFile files schema directory options = (.error error, after)) :
    Schema.load files schema = .error error ∧ after = files := by
  rw [generateFile] at h
  split at h
  · rename_i hload
    cases h
    exact ⟨hload, rfl⟩
  · dsimp only at h
    split at h
    · cases h
      exact hblame.elim
    · split at h
      · cases h
        exact hblame.elim
      · cases h

/-- What happens in a run of the generator that succeeds. -/
structure Run (files : FileSystem) (schema directory : FilePath) (options : Options)
    (path : FilePath) (after : FileSystem) where
  resolved : Schema
  /-- The file system with the output directory, before the code is written. -/
  made : FileSystem
  /-- Where the code is written. -/
  target : Location
  load : Schema.load files schema = .ok resolved
  makes : files.makeDirectories directory = (.ok (), made)
  path_eq : path = directory.join ⟨fileName schema⟩
  locate : made.locate path = .ok target
  free : made.node? target ≠ some .directory
  ending : path.ending = .name
  after_eq : after = made.set target (.file (codeOf schema options resolved).toUTF8)

theorem generateFile_eq_ok_iff : generateFile files schema directory options = (.ok path, after) ↔
    Nonempty (Run files schema directory options path after) := by
  rw [generateFile]
  constructor
  · intro h
    split at h
    · cases h
    · rename_i resolved hload
      split at h
      · cases h
      · rename_i made hmakes
        dsimp only at h
        split at h
        · cases h
        · rename_i last hwrite
          cases h
          obtain ⟨target, hlocate, hfree, hending, rfl⟩ := write_eq_ok_iff.1 hwrite
          exact ⟨⟨resolved, made, target, hload, hmakes, rfl, hlocate, hfree, hending, rfl⟩⟩
  · rintro ⟨resolved, made, target, hload, hmakes, rfl, hlocate, hfree, hending, rfl⟩
    have hwrite : made.write (directory.join ⟨fileName schema⟩) (codeOf schema options resolved) =
        .ok _ := write_eq_ok_iff.2 ⟨target, hlocate, hfree, hending, rfl⟩
    rw [codeOf] at hwrite
    simp only [hload, hmakes, hwrite]
    rfl

namespace Run

variable (run : Run files schema directory options path after)

include run

theorem adds : AddsDirectories files run.made (files.way directory) :=
  (makeDirectories_eq_ok run.makes).2.1

theorem node?_target :
    after.node? run.target = some (.file (codeOf schema options run.resolved).toUTF8) := by
  have h := node?_set_self run.made run.target (.file (codeOf schema options run.resolved).toUTF8)
  rwa [← run.after_eq] at h

theorem node?_of_ne {location : Location} (hne : location ≠ run.target) :
    after.node? location = run.made.node? location := by
  have h : (run.made.set run.target (.file (codeOf schema options run.resolved).toUTF8)).node?
      location = run.made.node? location := node?_set_of_ne hne _
  rwa [← run.after_eq] at h

theorem keepsDirectories_made : KeepsDirectories run.made after := by
  have h := keepsDirectories_set run.free (.file (codeOf schema options run.resolved).toUTF8)
  rwa [← run.after_eq] at h

theorem locate_target : after.locate path = .ok run.target :=
  run.keepsDirectories_made.locate run.locate

theorem locate_of_locate {other : FilePath} {location : Location}
    (h : files.locate other = .ok location) : after.locate other = .ok location :=
  run.keepsDirectories_made.locate (run.adds.locate h)

theorem exists_source : ∃ source content text, files.locate schema = .ok source ∧
    files.node? source = some (.file content) ∧ schema.ending = .name ∧
      String.fromUTF8? content = some text ∧ Schema.ofText text schema = .ok run.resolved := by
  obtain ⟨text, hread, htext⟩ := Schema.load_eq_ok_iff.1 run.load
  obtain ⟨source, content, hlocate, hnode, hending, hcontent⟩ := read_eq_ok_iff.1 hread
  exact ⟨source, content, text, hlocate, hnode, hending, hcontent, htext⟩

theorem makes_again : after.makeDirectories directory = (.ok (), after) :=
  makeDirectories_of_hasDirectory (check_of_makeDirectories run.makes)
    (run.keepsDirectories_made.hasDirectory (makeDirectories_eq_ok run.makes).2.2)

/-- A schema file that is not the output gives the same code again, and the code is there
already. -/
theorem again {source : Location} (hsource : files.locate schema = .ok source)
    (hne : source ≠ run.target) :
    generateFile after schema directory options = (.ok path, after) := by
  obtain ⟨found, content, text, hlocate, hnode, hending, hcontent, htext⟩ := run.exists_source
  obtain rfl := Except.ok.inj (hsource.symm.trans hlocate)
  have hkept : after.node? source = some (.file content) :=
    (run.node?_of_ne hne).trans (run.adds.node?_eq hnode)
  have hread : after.read schema = .ok text :=
    read_eq_ok_iff.2 ⟨source, content, run.locate_of_locate hsource, hkept, hending, hcontent⟩
  exact generateFile_eq_ok_iff.2 ⟨{
    resolved := run.resolved
    made := after
    target := run.target
    load := Schema.load_eq_ok_iff.2 ⟨text, hread, htext⟩
    makes := run.makes_again
    path_eq := run.path_eq
    locate := run.locate_target
    free := by
      rw [run.node?_target]
      exact nofun
    ending := run.ending
    after_eq := (set_of_node? run.node?_target).symm }⟩

theorem read_schema (hsource : files.locate schema = .ok run.target) :
    after.read schema = .ok (codeOf schema options run.resolved) := by
  obtain ⟨-, -, -, -, -, hending, -⟩ := run.exists_source
  rw [FileSystem.read, open?_eq_file_iff.2
    ⟨run.target, run.locate_of_locate hsource, run.node?_target, hending⟩]
  exact textOf_toUTF8 _

/-- There is no second run then. -/
theorem overwriting (hsource : files.locate schema = .ok run.target) :
    generateFile after schema directory options = (.error (.unparsable schema), after) := by
  rw [generateFile, Schema.load_of_read (run.read_schema hsource), codeOf, ofText_generate]

theorem target_eq : ∃ inside, after.follow (after.start directory) directory.parts = .ok inside ∧
    run.target = inside ++ [fileName schema] := by
  have hname := isName_fileName schema
  have hparts : path.parts = directory.parts ++ [fileName schema] :=
    (congrArg FilePath.parts run.path_eq).trans (FilePath.parts_join hname)
  have hstart : path.isAbsolute = directory.isAbsolute :=
    (congrArg FilePath.isAbsolute run.path_eq).trans (FilePath.isAbsolute_join hname)
  have hlast : path.parts.getLast? = some (fileName schema) := by
    rw [hparts, List.getLast?_concat]
  obtain ⟨inside, hfollow, htarget⟩ :=
    locate_eq_ok hlast (fileName_ne (by decide) schema) run.locate_target
  rw [hparts, List.dropLast_concat, start, hstart] at hfollow
  exact ⟨inside, hfollow, htarget⟩

theorem source_eq_target_iff {source : Location} {name : String}
    (hsource : files.locate schema = .ok source) (hname : schema.fileName? = some name) :
    source = run.target ↔ schema.extension? = some "rs" ∧
      after.follow (after.start directory) directory.parts = .ok source.dropLast := by
  obtain ⟨inside, hinside, htarget⟩ := run.target_eq
  obtain ⟨hlast, hup⟩ := FilePath.fileName?_eq_some_iff.1 hname
  obtain ⟨parent, -, rfl⟩ := locate_eq_ok hlast hup hsource
  rw [htarget, hinside, List.dropLast_concat, ← fileName_eq_iff hname, Except.ok.injEq]
  constructor
  · intro h
    obtain ⟨hparent, hsame⟩ := List.append_inj' h rfl
    exact ⟨(List.singleton_inj.1 hsame).symm, hparent.symm⟩
  · rintro ⟨rfl, rfl⟩
    rfl

end Run

/-- How a run leaves the files, the schema being at `source` and the code at `target`. -/
structure Outcome (files : FileSystem) (schema directory : FilePath) (options : Options)
    (path : FilePath) (after : FileSystem) (source target : Location) : Prop where
  read : ∃ content, files.locate schema = .ok source ∧ files.node? source = some (.file content)
  /-- The returned path leads to the code. -/
  returned : path = directory.join ⟨fileName schema⟩ ∧ after.locate path = .ok target
  code : ∃ resolved, Schema.load files schema = .ok resolved ∧
    after.node? target = some (.file (codeOf schema options resolved).toUTF8)
  current : after.current = files.current
  /-- All else is as it was, but for new directories on the way to the output. -/
  others : ∀ location ≠ target, after.node? location = files.node? location ∨
    files.node? location = none ∧ after.node? location = some .directory ∧
      location ∈ files.way directory
  /-- A schema that is not the output is as it was, and the same run changes nothing. -/
  apart : source ≠ target → after.locate schema = .ok source ∧
    after.node? source = files.node? source ∧
    generateFile after schema directory options = (.ok path, after)
  /-- A schema that is the output is replaced by code, which cannot be read as a schema. -/
  same : source = target →
    generateFile after schema directory options = (.error (.unparsable schema), after)
  /-- When the schema is the output. -/
  same_iff : ∀ name, schema.fileName? = some name → (source = target ↔
    schema.extension? = some "rs" ∧
      after.follow (after.start directory) directory.parts = .ok source.dropLast)

/-- A run that succeeds writes one file.  If that is not the schema itself, the schema is kept
and the run can be repeated. -/
theorem generateFile_outcome (h : generateFile files schema directory options = (.ok path, after)) :
    ∃ source target, Outcome files schema directory options path after source target := by
  obtain ⟨run⟩ := generateFile_eq_ok_iff.1 h
  obtain ⟨source, content, -, hsource, hnode, -⟩ := run.exists_source
  refine ⟨source, run.target, {
    read := ⟨content, hsource, hnode⟩
    returned := ⟨run.path_eq, run.locate_target⟩
    code := ⟨run.resolved, run.load, run.node?_target⟩
    current := run.keepsDirectories_made.current.trans run.adds.current
    others := fun location hne => ?others
    apart := fun hne => ?apart
    same := ?same
    same_iff := fun name hname => run.source_eq_target_iff hsource hname }⟩
  case others =>
    rw [run.node?_of_ne hne]
    exact run.adds.node location
  case apart =>
    have hkept := (run.node?_of_ne hne).trans (run.adds.node?_eq hnode)
    exact ⟨run.locate_of_locate hsource, hkept.trans hnode.symm, run.again hsource hne⟩
  case same =>
    rintro rfl
    exact run.overwriting hsource

def rootText : String := "[[messages]]\nname = \"Root\"\n"

def rootSchema : Schema where
  enums := []
  messages := [{ name := "Root", doc := "", fields := [] }]

theorem load_rootText {name : String}
    (h : (oneFile name rootText).open? ⟨name⟩ = .ok (.file rootText.toUTF8)) :
    Schema.load (oneFile name rootText) ⟨name⟩ = .ok rootSchema := by
  have hread : (oneFile name rootText).read ⟨name⟩ = .ok rootText := by
    rw [FileSystem.read, h]
    exact textOf_toUTF8 rootText
  have hparse : RawSchema.parse? rootText = some { messages := [{ name := "Root" }] } := by
    decide +kernel
  rw [Schema.load_of_read hread, Schema.ofText, hparse]
  rfl

/-- The files after the code of `rootText` was written to a location. -/
def withCode (files : FileSystem) (schema : FilePath) (target : Location) : FileSystem :=
  files.set target (.file (codeOf schema {} rootSchema).toUTF8)

theorem generateFile_outcome_out :
    let files := oneFile "root.toml" rootText
    let after := withCode (files.set ["out"] .directory) ⟨"root.toml"⟩ ["out", "root.rs"]
    generateFile files ⟨"root.toml"⟩ ⟨"out"⟩ {} = (.ok ⟨"out/root.rs"⟩, after) ∧
      after.node? ["root.toml"] = some (.file rootText.toUTF8) ∧
      generateFile after ⟨"root.toml"⟩ ⟨"out"⟩ {} = (.ok ⟨"out/root.rs"⟩, after) := by
  intro files after
  have hmakes : files.makeDirectories ⟨"out"⟩ = (.ok (), files.set ["out"] .directory) := rfl
  have hrun : generateFile files ⟨"root.toml"⟩ ⟨"out"⟩ {} = (.ok ⟨"out/root.rs"⟩, after) :=
    generateFile_eq_ok_iff.2 ⟨{
      resolved := rootSchema
      made := files.set ["out"] .directory
      target := ["out", "root.rs"]
      load := load_rootText rfl
      makes := hmakes
      path_eq := by decide +kernel
      locate := rfl
      free := nofun
      ending := rfl
      after_eq := rfl }⟩
  obtain ⟨source, target, houtcome⟩ := generateFile_outcome hrun
  obtain ⟨content, hsource, hnode⟩ := houtcome.read
  obtain rfl : ["root.toml"] = source := Except.ok.inj hsource
  obtain rfl : ["out", "root.rs"] = target := Except.ok.inj houtcome.returned.2
  obtain ⟨-, hsame, hagain⟩ := houtcome.apart (by decide)
  exact ⟨hrun, hsame, hagain⟩

/-- A schema file in the output directory is lost if it is called like its code. -/
theorem generateFile_replaces_schema :
    let files := oneFile "root.rs" rootText
    let after := withCode files ⟨"root.rs"⟩ ["root.rs"]
    generateFile files ⟨"root.rs"⟩ ⟨"."⟩ {} = (.ok ⟨"./root.rs"⟩, after) ∧
      files.read ⟨"root.rs"⟩ = .ok rootText ∧ after.read ⟨"root.rs"⟩ ≠ .ok rootText ∧
      generateFile after ⟨"root.rs"⟩ ⟨"."⟩ {} = (.error (.unparsable ⟨"root.rs"⟩), after) := by
  intro files after
  let run : Run files ⟨"root.rs"⟩ ⟨"."⟩ {} ⟨"./root.rs"⟩ after := {
    resolved := rootSchema
    made := files
    target := ["root.rs"]
    load := load_rootText rfl
    makes := rfl
    path_eq := by decide +kernel
    locate := rfl
    free := nofun
    ending := rfl
    after_eq := rfl }
  have hsource : files.locate ⟨"root.rs"⟩ = .ok run.target := rfl
  refine ⟨generateFile_eq_ok_iff.2 ⟨run⟩, textOf_toUTF8 rootText, ?_, run.overwriting hsource⟩
  rw [run.read_schema hsource]
  intro h
  have hcode : generate rootSchema _ = rootText := Except.ok.inj h
  obtain ⟨cs, hcs⟩ := toList_generate rootSchema { sourceName := some "root.rs" }
  have hhead : some '/' = rootText.toList.head? :=
    congrArg List.head? (hcs.symm.trans (congrArg String.toList hcode))
  exact absurd hhead (by decide)

end Code

end LayeredConfig
