import LayeredConfig.FilePath
import LayeredConfig.Proofs.Text.Split

/-!
# Names and paths

A name is its stem and, after a dot, its extension (`splitName_of_some`).  Joining a directory
and a name gives a path that starts where the directory starts, and has that name as one more
part (`parts_join`).
-/

namespace LayeredConfig.FilePath

open Text

/-- A text that is the name of something in a directory, and no more than that. -/
structure IsName (name : String) : Prop where
  slash : '/' ∉ name.toList
  ne_empty : name ≠ ""
  ne_dot : name ≠ "."

theorem isName_of_mem_parts {path : FilePath} {part : String} (h : part ∈ path.parts) :
    IsName part := by
  obtain ⟨hpiece, hpart⟩ := List.mem_filter.1 h
  simp only [Bool.and_eq_true, bne_iff_ne] at hpart
  exact ⟨not_mem_of_mem_splitString hpiece, hpart.1, hpart.2⟩

theorem fileName?_eq_some_iff {path : FilePath} {name : String} :
    path.fileName? = some name ↔ path.parts.getLast? = some name ∧ name ≠ ".." := by
  rw [fileName?, Option.filter_eq_some_iff, bne_iff_ne]

/-- A name that begins at its only dot, or has none, is all stem. -/
theorem splitName_of_none {name stem : String} (h : splitName name = (stem, none)) :
    stem = name := by
  simp only [splitName] at h
  split at h
  · exact (Prod.mk.inj h).1.symm
  · cases h

/-- Any other name is its stem, a dot and its extension. -/
theorem splitName_of_some {name stem extension : String}
    (h : splitName name = (stem, some extension)) : name = stem ++ "." ++ extension := by
  simp only [splitName] at h
  generalize hafter : name.toList.reverse.takeWhile (fun c => c != '.') = after at h
  have hwhole := List.takeWhile_append_dropWhile (p := fun c => c != '.') (l := name.toList.reverse)
  rw [hafter] at hwhole
  cases hrest : name.toList.reverse.dropWhile (fun c => c != '.') with
  | nil =>
    -- There is no dot.
    rw [hrest, List.append_nil] at hwhole
    have hlength : after.reverse.length = name.toList.length := by
      rw [hwhole, List.reverse_reverse]
    rw [hlength, Nat.sub_self] at h
    cases h
  | cons dot before =>
    have hdot : dot = '.' := by
      have hhead := List.head?_dropWhile_not (fun c => c != '.') name.toList.reverse
      rw [hrest] at hhead
      simpa using hhead
    subst hdot
    have hname : name.toList = before.reverse ++ '.' :: after.reverse := by
      rw [← List.reverse_reverse name.toList, ← hwhole, hrest]
      simp
    have hbefore : name.toList.take (name.toList.length - after.reverse.length - 1) =
        before.reverse := by
      rw [hname]
      exact List.take_left' (by simp; omega)
    rw [hbefore] at h
    split at h
    · cases h
    · obtain ⟨rfl, hextension⟩ := Prod.mk.inj h
      obtain rfl := Option.some.inj hextension
      apply String.toList_inj.1
      rw [hname]
      simp

theorem toList_stem_subset (name : String) : (splitName name).1.toList ⊆ name.toList := by
  obtain ⟨stem, extension, h⟩ : ∃ stem extension, splitName name = (stem, extension) := ⟨_, _, rfl⟩
  rw [h]
  cases extension with
  | none => rw [splitName_of_none h]; exact List.Subset.refl _
  | some extension =>
    rw [splitName_of_some h, String.toList_append, String.toList_append, List.append_assoc]
    exact List.subset_append_left _ _

section Join

variable {directory : FilePath} {name : String} (hname : IsName name)

include hname

theorem isAbsolute_of_isName : (FilePath.mk name).isAbsolute = false := by
  rw [isAbsolute, beq_eq_false_iff_ne]
  exact fun h => hname.slash (List.mem_of_head? h)

theorem parts_join : (directory.join ⟨name⟩).parts = directory.parts ++ [name] := by
  have hpieces : splitString '/' name = [name] := by
    rw [splitString, split_of_not_mem hname.slash]
    simp
  have hkeep : [name].filter (fun piece => piece != "" && piece != ".") = [name] := by
    simp [hname.ne_empty, hname.ne_dot]
  obtain ⟨text⟩ := directory
  rw [join, isAbsolute_of_isName hname, if_neg Bool.false_ne_true]
  split
  · rename_i hend
    rw [Bool.or_eq_true, decide_eq_true_iff, beq_iff_eq] at hend
    rcases hend with hend | hend
    · obtain rfl : text = "" := hend
      rw [parts, pieces, String.empty_append, hpieces, hkeep]
      rfl
    · -- The directory ends in a slash, which leaves an empty piece at its end.
      obtain ⟨before, hbefore⟩ := List.getLast?_eq_some_iff.1 hend
      obtain rfl : text = String.ofList before ++ String.ofList ['/'] ++ "" := by
        apply String.toList_inj.1
        simpa using hbefore
      have htext : String.ofList before ++ String.ofList ['/'] ++ "" ++ name =
          String.ofList before ++ String.ofList ['/'] ++ name := by
        rw [String.append_empty]
      rw [parts, pieces, htext, splitString_append_sep, hpieces, List.filter_append, hkeep, parts,
        pieces, splitString_append_sep, List.filter_append]
      simp [splitString, split]
  · rw [parts, pieces, show "/" = String.ofList ['/'] from rfl, splitString_append_sep, hpieces,
      List.filter_append, hkeep]
    rfl

theorem isAbsolute_join : (directory.join ⟨name⟩).isAbsolute = directory.isAbsolute := by
  obtain ⟨text⟩ := directory
  rw [join, isAbsolute_of_isName hname, if_neg Bool.false_ne_true]
  cases hcs : text.toList with
  | nil =>
    obtain rfl : text = "" := String.toList_inj.1 hcs
    rw [if_pos (by simp), String.empty_append]
    exact isAbsolute_of_isName hname
  | cons c cs =>
    split <;> simp [isAbsolute, hcs]

end Join

end LayeredConfig.FilePath
