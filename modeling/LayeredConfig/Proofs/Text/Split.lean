import LayeredConfig.Text.Split

/-!
# Cutting joined text

Parts that do not hold the separator are found again when their join is cut
(`split_join`); other parts are cut as well (`split_join_eq_flatMap`).  The pieces of
a cut do not hold it and are made of the characters of the text (`mem_split`).
-/

namespace LayeredConfig.Text

theorem split_of_not_mem {sep : Char} {part : List Char} (h : sep ∉ part) :
    split sep part = [part] := by
  induction part with
  | nil => rfl
  | cons c part ih =>
    rw [List.mem_cons, not_or] at h
    rw [split, if_neg (Ne.symm h.1), ih h.2]

theorem split_append_cons {sep : Char} {part : List Char} (h : sep ∉ part) (cs : List Char) :
    split sep (part ++ sep :: cs) = part :: split sep cs := by
  induction part with
  | nil => rw [List.nil_append, split, if_pos rfl]
  | cons c part ih =>
    rw [List.mem_cons, not_or] at h
    rw [List.cons_append, split, if_neg (Ne.symm h.1), ih h.2]

theorem split_append_sep (sep : Char) (cs more : List Char) :
    split sep (cs ++ sep :: more) = split sep cs ++ split sep more := by
  induction cs with
  | nil => simp [split]
  | cons c cs ih =>
    obtain ⟨piece, pieces, hsplit⟩ := List.exists_cons_of_ne_nil (split_ne_nil sep cs)
    by_cases hc : c = sep
    · simp [split, hc, ih]
    · simp [split, hc, ih, hsplit]

theorem join_cons_of_ne_nil {sep part : List Char} {parts : List (List Char)}
    (h : parts ≠ []) : join sep (part :: parts) = part ++ sep ++ join sep parts := by
  obtain ⟨next, parts, rfl⟩ := List.exists_cons_of_ne_nil h
  rfl

theorem join_append_cons (sep part next : List Char) (parts : List (List Char)) :
    join sep ((part ++ sep ++ next) :: parts) = join sep (part :: next :: parts) := by
  cases parts <;> simp [join]

theorem map_join (f : Char → Char) (sep : List Char) (parts : List (List Char)) :
    (join sep parts).map f = join (sep.map f) (parts.map (List.map f)) := by
  induction parts with
  | nil => rfl
  | cons part parts ih =>
    cases parts with
    | nil => rfl
    | cons next parts =>
      rw [join_cons_of_ne_nil (List.cons_ne_nil next parts), List.map_append, List.map_append, ih]
      rfl

theorem split_join {sep : Char} {parts : List (List Char)} (hne : parts ≠ [])
    (h : ∀ part ∈ parts, sep ∉ part) : split sep (join [sep] parts) = parts := by
  induction parts with
  | nil => exact absurd rfl hne
  | cons part parts ih =>
    obtain ⟨hpart, hparts⟩ := List.forall_mem_cons.1 h
    cases parts with
    | nil => exact split_of_not_mem hpart
    | cons next parts =>
      rw [join_cons_of_ne_nil (List.cons_ne_nil next parts), List.append_assoc,
        List.singleton_append, split_append_cons hpart, ih (List.cons_ne_nil next parts) hparts]

theorem split_join_eq_flatMap {sep : Char} {parts : List (List Char)} (hne : parts ≠ []) :
    split sep (join [sep] parts) = parts.flatMap (split sep) := by
  induction parts with
  | nil => exact absurd rfl hne
  | cons part parts ih =>
    cases parts with
    | nil => simp [join]
    | cons next parts =>
      rw [join_cons_of_ne_nil (List.cons_ne_nil next parts), List.append_assoc,
        List.singleton_append, split_append_sep, ih (List.cons_ne_nil next parts)]
      rfl

theorem split_append_replicate {sep : Char} {part : List Char} (h : sep ∉ part) (n : Nat) :
    split sep (part ++ List.replicate n sep) = part :: List.replicate n [] := by
  induction n generalizing part with
  | zero => rw [List.replicate_zero, List.append_nil, split_of_not_mem h, List.replicate_zero]
  | succ n ih =>
    have hrest : split sep (List.replicate n sep) = [] :: List.replicate n [] :=
      ih List.not_mem_nil
    rw [List.replicate_succ, split_append_cons h, hrest, List.replicate_succ]

theorem split_inj (sep : Char) {cs more : List Char} :
    split sep cs = split sep more ↔ cs = more := by
  refine ⟨fun h => ?_, congrArg _⟩
  rw [← join_split sep cs, h, join_split]

theorem mem_split {sep : Char} {cs piece : List Char} (h : piece ∈ split sep cs) :
    sep ∉ piece ∧ piece ⊆ cs := by
  induction cs generalizing piece with
  | nil =>
    obtain rfl := List.mem_singleton.1 h
    exact ⟨List.not_mem_nil, List.Subset.refl _⟩
  | cons c cs ih =>
    obtain ⟨next, pieces, hsplit⟩ := List.exists_cons_of_ne_nil (split_ne_nil sep cs)
    rw [hsplit] at ih
    rw [split, hsplit] at h
    split at h
    · rcases List.mem_cons.1 h with rfl | h
      · exact ⟨List.not_mem_nil, List.nil_subset _⟩
      · exact ⟨(ih h).1, List.subset_cons_of_subset c (ih h).2⟩
    · rename_i hc
      rcases List.mem_cons.1 h with rfl | h
      · obtain ⟨hnext, hsub⟩ := ih List.mem_cons_self
        exact ⟨List.not_mem_cons_of_ne_of_not_mem (Ne.symm hc) hnext, List.cons_subset_cons c hsub⟩
      · obtain ⟨hpiece, hsub⟩ := ih (List.mem_cons_of_mem next h)
        exact ⟨hpiece, List.subset_cons_of_subset c hsub⟩

def dotted (parts : List String) : String :=
  String.ofList (join ['.'] (parts.map String.toList))

theorem dotted_splitString (key : String) : dotted (splitString '.' key) = key := by
  rw [splitString, dotted, List.map_map]
  simp [Function.comp_def, join_split]

theorem intercalate_eq_ofList_join (sep : List Char) (parts : List String) :
    (String.ofList sep).intercalate parts = String.ofList (join sep (parts.map String.toList)) := by
  induction parts with
  | nil => rfl
  | cons part parts ih =>
    cases parts with
    | nil => simp [join]
    | cons next parts =>
      rw [String.intercalate_cons_cons, ih]
      apply String.toList_inj.1
      simp [join]

theorem intercalate_eq_dotted (parts : List String) : ".".intercalate parts = dotted parts :=
  intercalate_eq_ofList_join ['.'] parts

theorem splitString_intercalate {sep : Char} {parts : List String} (hne : parts ≠ [])
    (h : ∀ part ∈ parts, sep ∉ part.toList) :
    splitString sep ((String.ofList [sep]).intercalate parts) = parts := by
  have hcut : ∀ part ∈ parts.map String.toList, sep ∉ part := List.forall_mem_map.2 h
  rw [intercalate_eq_ofList_join, splitString, String.toList_ofList,
    split_join (mt List.map_eq_nil_iff.1 hne) hcut, List.map_map]
  simp [Function.comp_def]

theorem splitString_append_sep (sep : Char) (s more : String) :
    splitString sep (s ++ String.ofList [sep] ++ more) =
      splitString sep s ++ splitString sep more := by
  rw [splitString, String.toList_append, String.toList_append, String.toList_ofList,
    List.append_assoc, List.singleton_append, split_append_sep, List.map_append]
  rfl

theorem intercalate_splitString (sep : Char) (s : String) :
    (String.ofList [sep]).intercalate (splitString sep s) = s := by
  rw [intercalate_eq_ofList_join, splitString, List.map_map]
  simp [Function.comp_def, join_split]

theorem splitString_dotted {parts : List String} (hne : parts ≠ [])
    (h : ∀ part ∈ parts, '.' ∉ part.toList) : splitString '.' (dotted parts) = parts := by
  rw [← intercalate_eq_dotted]
  exact splitString_intercalate hne h

theorem splitString_dotted_eq_flatMap {parts : List String} (hne : parts ≠ []) :
    splitString '.' (dotted parts) = parts.flatMap (splitString '.') := by
  rw [splitString, dotted, String.toList_ofList,
    split_join_eq_flatMap (mt List.map_eq_nil_iff.1 hne), List.flatMap_map, List.map_flatMap]
  rfl

theorem splitString_ne_nil (sep : Char) (s : String) : splitString sep s ≠ [] :=
  mt List.map_eq_nil_iff.1 (split_ne_nil sep s.toList)

theorem not_mem_of_mem_splitString {sep : Char} {s piece : String}
    (h : piece ∈ splitString sep s) : sep ∉ piece.toList := by
  obtain ⟨cs, hcs, rfl⟩ := List.mem_map.1 h
  rw [String.toList_ofList]
  exact (mem_split hcs).1

/-- Leaving out pieces changes the text, unless it leaves out none. -/
theorem dotted_filter_eq_iff {pieces : List String} (hne : pieces ≠ [])
    (hcut : ∀ piece ∈ pieces, '.' ∉ piece.toList) {keep : String → Bool} (hkeep : keep "" = true) :
    dotted (pieces.filter keep) = dotted pieces ↔ ∀ piece ∈ pieces, keep piece = true := by
  rw [← List.filter_eq_self]
  refine ⟨fun h => ?_, congrArg dotted⟩
  have hall := splitString_dotted hne hcut
  rw [← h] at hall
  by_cases hnone : pieces.filter keep = []
  · -- Nothing was kept, and so the text is empty; but the empty piece is kept.
    rw [hnone] at hall
    obtain rfl : pieces = [""] := hall.symm
    exact absurd hnone (by simp [hkeep])
  · exact (splitString_dotted hnone fun piece hp => hcut piece (List.mem_filter.1 hp).1).symm.trans
      hall

end LayeredConfig.Text
