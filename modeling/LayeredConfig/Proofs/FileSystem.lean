import LayeredConfig.FileSystem
import LayeredConfig.Proofs.Except

/-!
# Reading what was written

Writing a file gives one location a new node, and that location held no
directory before.  So every path that could be followed still leads where it
led (`KeepsDirectories`), and the written path leads to the text
(`open?_of_write`).
-/

namespace LayeredConfig.FileSystem

variable {files after : FileSystem} {path : FilePath} {text : String}

theorem textOf_toUTF8 (text : String) : textOf (.file text.toUTF8) = .ok text := by
  have hvalid : text.toUTF8.IsValidUTF8 := text.isValidUTF8
  have htext : String.fromUTF8? text.toUTF8 = some text := dif_pos hvalid
  rw [textOf, htext]

theorem node?_set_self (files : FileSystem) (location : Location) (node : Node) :
    (files.set location node).node? location = some node := by
  simp [set]

theorem node?_set_of_ne {location other : Location} (h : other ≠ location) (node : Node) :
    (files.set location node).node? other = files.node? other := by
  simp [set, h]

theorem set_of_node? {location : Location} {node : Node}
    (h : files.node? location = some node) : files.set location node = files := by
  rw [set]
  congr 1
  funext other
  split
  · rename_i heq
    rw [heq, h]
  · rfl

theorem get_eq_ok_iff {location : Location} {node : Node} :
    files.get location = .ok node ↔ files.node? location = some node := by
  rw [get]
  cases files.node? location with
  | none => simp
  | some found => simp

/-- Every directory is still there, and so is the current one. -/
structure KeepsDirectories (files after : FileSystem) : Prop where
  current : after.current = files.current
  node : ∀ location, files.node? location = some .directory →
    after.node? location = some .directory

theorem keepsDirectories_set {location : Location} (hfree : files.node? location ≠ some .directory)
    (node : Node) : KeepsDirectories files (files.set location node) where
  current := rfl
  node other hother := by
    have hne : other ≠ location := by
      rintro rfl
      exact hfree hother
    rw [node?_set_of_ne hne, hother]

theorem follow_cons_eq_ok_iff {directory reached : Location} {part : String}
    {parts : List String} :
    files.follow directory (part :: parts) = .ok reached ↔
      ∃ next, step directory part = .ok next ∧ files.node? next = some .directory ∧
        files.follow next parts = .ok reached := by
  rw [follow, bind_eq_ok_iff]
  refine exists_congr fun next => and_congr_right fun _ => ?_
  rw [bind_eq_ok_iff]
  constructor
  · rintro ⟨found, hget, h⟩
    cases found with
    | file content => cases h
    | directory => exact ⟨get_eq_ok_iff.1 hget, h⟩
  · rintro ⟨hnode, h⟩
    exact ⟨.directory, get_eq_ok_iff.2 hnode, h⟩

theorem KeepsDirectories.follow (h : KeepsDirectories files after) {directory reached : Location}
    {parts : List String} (hfollow : files.follow directory parts = .ok reached) :
    after.follow directory parts = .ok reached := by
  induction parts generalizing directory with
  | nil => exact hfollow
  | cons part parts ih =>
    obtain ⟨next, hstep, hnode, hrest⟩ := follow_cons_eq_ok_iff.1 hfollow
    exact follow_cons_eq_ok_iff.2 ⟨next, hstep, h.node next hnode, ih hrest⟩

theorem KeepsDirectories.start (h : KeepsDirectories files after) (path : FilePath) :
    after.start path = files.start path := by
  rw [FileSystem.start, FileSystem.start, h.current]

theorem KeepsDirectories.locate (h : KeepsDirectories files after) {reached : Location}
    (hlocate : files.locate path = .ok reached) : after.locate path = .ok reached := by
  rw [FileSystem.locate] at hlocate ⊢
  obtain ⟨checked, hcheck, hlocate⟩ := bind_eq_ok_iff.1 hlocate
  obtain ⟨directory, hfollow, hlocate⟩ := bind_eq_ok_iff.1 hlocate
  rw [h.start]
  refine bind_eq_ok_iff.2 ⟨checked, hcheck, ?_⟩
  exact bind_eq_ok_iff.2 ⟨directory, h.follow hfollow, hlocate⟩

theorem locate_eq_ok {part : String} (hpart : path.parts.getLast? = some part) (hup : part ≠ "..")
    {location : Location} (h : files.locate path = .ok location) :
    ∃ directory, files.follow (files.start path) path.parts.dropLast = .ok directory ∧
      location = directory ++ [part] := by
  rw [FileSystem.locate] at h
  obtain ⟨-, -, h⟩ := bind_eq_ok_iff.1 h
  obtain ⟨directory, hfollow, h⟩ := bind_eq_ok_iff.1 h
  refine ⟨directory, hfollow, ?_⟩
  rw [hpart] at h
  simp only [step, if_neg hup] at h
  split at h
  · cases h
  · exact (Except.ok.inj h).symm

theorem open?_eq_file_iff {content : ByteArray} :
    files.open? path = .ok (.file content) ↔ ∃ location, files.locate path = .ok location ∧
      files.node? location = some (.file content) ∧ path.ending = .name := by
  rw [open?, bind_eq_ok_iff]
  refine exists_congr fun location => and_congr_right fun _ => ?_
  rw [bind_eq_ok_iff]
  constructor
  · rintro ⟨found, hget, h⟩
    cases found with
    | directory => cases h
    | file found =>
      have hfile : (if path.ending = .name then Except.ok (Node.file found)
          else .error FileError.notDirectory) = .ok (.file content) := h
      split at hfile
      · rename_i hending
        obtain rfl := Node.file.inj (Except.ok.inj hfile)
        exact ⟨get_eq_ok_iff.1 hget, hending⟩
      · cases hfile
  · rintro ⟨hnode, hending⟩
    exact ⟨.file content, get_eq_ok_iff.2 hnode, if_pos hending⟩

theorem read_eq_ok_iff : files.read path = .ok text ↔ ∃ location content,
    files.locate path = .ok location ∧ files.node? location = some (.file content) ∧
      path.ending = .name ∧ String.fromUTF8? content = some text := by
  rw [read, bind_eq_ok_iff]
  constructor
  · rintro ⟨found, hopen, h⟩
    cases found with
    | directory => cases h
    | file content =>
      obtain ⟨location, hlocate, hnode, hending⟩ := open?_eq_file_iff.1 hopen
      refine ⟨location, content, hlocate, hnode, hending, ?_⟩
      rw [textOf] at h
      split at h
      · rename_i found htext
        rw [htext, Except.ok.inj h]
      · cases h
  · rintro ⟨location, content, hlocate, hnode, hending, htext⟩
    refine ⟨.file content, open?_eq_file_iff.2 ⟨location, hlocate, hnode, hending⟩, ?_⟩
    rw [textOf, htext]

/-- What writing does: it sets the location of the path, which is no directory. -/
theorem write_eq_ok_iff : files.write path text = .ok after ↔
    ∃ location, files.locate path = .ok location ∧ files.node? location ≠ some .directory ∧
      path.ending = .name ∧ after = files.set location (.file text.toUTF8) := by
  rw [write, bind_eq_ok_iff]
  refine exists_congr fun location => and_congr_right fun _ => ?_
  constructor
  · intro h
    split at h
    · cases h
    · rename_i hfree
      split at h
      · rename_i hending
        cases h
        exact ⟨hfree, hending, rfl⟩
      · cases h
  · rintro ⟨hfree, hending, rfl⟩
    split
    · rename_i hdirectory
      exact absurd hdirectory hfree
    · exact if_pos hending

theorem open?_of_write (h : files.write path text = .ok after) :
    after.open? path = .ok (.file text.toUTF8) := by
  obtain ⟨location, hlocate, hfree, hending, rfl⟩ := write_eq_ok_iff.1 h
  have hlocate' := (keepsDirectories_set hfree (.file text.toUTF8)).locate hlocate
  exact open?_eq_file_iff.2 ⟨location, hlocate', node?_set_self files location _, hending⟩

def oneFile (name text : String) : FileSystem where
  current := []
  node? location :=
    if location = [name] then some (.file text.toUTF8)
    else if location = [] then some .directory else none

end LayeredConfig.FileSystem
