import LayeredConfig.Agent.Loader
import LayeredConfig.Proofs.Generation

/-!
# What is left of a failed generation

The action makes the output directory and runs the generator, which looks at the schema before
it makes the same directory.  So the action does what the generator alone does if that succeeds
(`generate_of_generateFile`).  If the schema is at fault, the directory has been made all the
same (`handle_generate_blamesSchema`), although the generator alone would have left no trace.
-/

namespace LayeredConfig

open FileSystem

namespace Loader

variable {message : Message} {files after : FileSystem} {schema : FilePath}
  {output : Option FilePath} {runtime : Option String} {error : GenerationError}

theorem generate_of_generateFile {path : FilePath} {options : Code.Options}
    (hoptions : options = runtime.elim {} fun runtime => { runtime := runtime })
    (h : Code.generateFile files schema (output.getD ⟨"."⟩) options = (.ok path, after)) :
    generate files schema output runtime = (.ok (.generated path), after) := by
  obtain ⟨run⟩ := Code.generateFile_eq_ok_iff.1 h
  have hrun : Code.generateFile run.made schema (output.getD ⟨"."⟩) options = (.ok path, after) :=
    Code.generateFile_eq_ok_iff.2 ⟨{ run with
      made := run.made
      load := Schema.load_of_addsDirectories run.adds run.load
      makes := makeDirectories_again run.makes }⟩
  cases runtime with
  | none =>
    obtain rfl : options = {} := hoptions
    simp only [generate, run.makes, hrun]
  | some runtime =>
    obtain rfl : options = { runtime := runtime } := hoptions
    simp only [generate, run.makes, hrun]

/-- An action that fails in the generator has made the output directory. -/
theorem generate_eq_error
    (h : generate files schema output runtime = (.error (.generation error), after)) :
    ∃ made options, files.makeDirectories (output.getD ⟨"."⟩) = (.ok (), made) ∧
      Code.generateFile made schema (output.getD ⟨"."⟩) options = (.error error, after) := by
  simp only [generate] at h
  split at h
  · cases h
  · rename_i made hmakes
    split at h
    · rename_i hrun
      cases h
      exact ⟨made, _, hmakes, hrun⟩
    · cases h

/-- A generation that fails because of its schema, which the generator alone would have found
before touching anything, leaves the output directory and those on the way to it behind. -/
theorem handle_generate_blamesSchema (loader : Loader message) (hblame : error.BlamesSchema)
    (h : (loader.handle files (.generate schema output runtime)).result =
      .error (.generation error)) :
    let directory := output.getD ⟨"."⟩
    let after := (loader.handle files (.generate schema output runtime)).files
    after = files.withDirectories (files.way directory) ∧
      AddsDirectories files after (files.way directory) ∧
      (after = files ↔ files.HasDirectory directory) ∧
      ∃ found : GenerationError, found.BlamesSchema ∧ ∀ options,
        Code.generateFile files schema directory options = (.error found, files) := by
  intro directory after
  have hgenerate : generate files schema output runtime = (.error (.generation error), after) :=
    Prod.ext h rfl
  obtain ⟨made, options, hmakes, hrun⟩ := generate_eq_error hgenerate
  obtain ⟨hload, hsame⟩ := Code.load_of_generateFile hblame hrun
  rw [← hsame] at hmakes hload
  obtain ⟨hafter, hadds, -⟩ := makeDirectories_eq_ok hmakes
  refine ⟨hafter, hadds, makeDirectories_unchanged_iff hmakes, ?_⟩
  cases hbefore : Schema.load files schema with
  | ok resolved => exact nomatch hload.symm.trans (Schema.load_of_addsDirectories hadds hbefore)
  | error found =>
    exact ⟨found, Schema.blamesSchema_of_load hbefore, Code.generateFile_of_load hbefore _⟩

/-- The schema does not parse, and two directories are left. -/
theorem handle_generate_unparsable :
    let files := oneFile "x.toml" "[["
    let handled := (Agent.loader .empty).handle files (.generate ⟨"x.toml"⟩ (some ⟨"a/b"⟩) none)
    (GenerationError.unparsable ⟨"x.toml"⟩).BlamesSchema ∧
      handled.result = .error (.generation (.unparsable ⟨"x.toml"⟩)) ∧
      handled.files = files.withDirectories [["a"], ["a", "b"]] ∧ handled.files ≠ files := by
  intro files handled
  have hblame : (GenerationError.unparsable ⟨"x.toml"⟩).BlamesSchema := trivial
  have hmakes : files.makeDirectories ⟨"a/b"⟩ =
      (.ok (), (files.set ["a"] .directory).set ["a", "b"] .directory) := rfl
  have hread : ((files.set ["a"] .directory).set ["a", "b"] .directory).read ⟨"x.toml"⟩ =
      .ok "[[" := textOf_toUTF8 "[["
  have hload : Schema.ofText "[[" ⟨"x.toml"⟩ = .error (.unparsable ⟨"x.toml"⟩) := rfl
  have hresult : handled.result = .error (.generation (.unparsable ⟨"x.toml"⟩)) := by
    have hrun := Code.generateFile_of_load ((Schema.load_of_read hread).trans hload) ⟨"a/b"⟩ {}
    simp only [handled, handle, generate, Option.getD_some, hmakes, hrun]
  obtain ⟨hafter, -, hunchanged, -⟩ :=
    handle_generate_blamesSchema (Agent.loader .empty) hblame hresult
  have hway : files.way ⟨"a/b"⟩ = [["a"], ["a", "b"]] := by decide +kernel
  have hmissing : ¬ files.HasDirectory ⟨"a/b"⟩ := by
    rw [HasDirectory]
    decide +kernel
  refine ⟨hblame, hresult, ?_, fun hsame => hmissing (hunchanged.1 hsame)⟩
  rw [← hway]
  exact hafter

/-- The schema is missing, and there is a directory that was not there before. -/
theorem handle_generate_missing :
    let files := oneFile "x.toml" "[["
    let handled :=
      (Agent.loader .empty).handle files (.generate ⟨"missing.toml"⟩ (some ⟨"out"⟩) none)
    handled.result = .error (.generation (.unreadable ⟨"missing.toml"⟩ .notFound)) ∧
      files.node? ["out"] = none ∧ handled.files.node? ["out"] = some .directory := by
  intro files handled
  exact ⟨rfl, rfl, rfl⟩

end Loader

end LayeredConfig
