import LayeredConfig.Proofs.Text.Split
import LayeredConfig.Proofs.Text.Trim
import LayeredConfig.Schema.Basic
import Mathlib.Data.List.Infix

/-!
# The lines of a documentation

A documentation is cut at its line feeds, and white space at the ends of the lines is
taken away (`toList_docLines`).  A carriage return in front of a line feed is white
space and goes with the rest.  One that has something else after it on its line does
not end the line, and it stays (`return_mem_docLines_iff`).
-/

namespace LayeredConfig

open Text

namespace Text

/-! ## Trimming at the end -/

theorem trimEnd_append_of_not_blank {after : List Char} (h : ¬ Blank after) (before : List Char) :
    trimEnd (before ++ after) = before ++ trimEnd after := by
  have hne : (after.reverse.dropWhile isWhiteSpace).isEmpty = false := by
    rw [List.isEmpty_eq_false_iff, Ne, List.dropWhile_eq_nil_iff]
    exact fun hall => h fun c hc => hall c (List.mem_reverse.2 hc)
  rw [trimEnd, trimEnd, List.reverse_append, List.dropWhile_append, hne, if_neg Bool.false_ne_true,
    List.reverse_append, List.reverse_reverse]

theorem trimEnd_append_of_blank {after : List Char} (h : Blank after) (before : List Char) :
    trimEnd (before ++ after) = trimEnd before := by
  have hnil : after.reverse.dropWhile isWhiteSpace = [] :=
    List.dropWhile_eq_nil_iff.2 fun c hc => h c (List.mem_reverse.1 hc)
  rw [trimEnd, trimEnd, List.reverse_append, List.dropWhile_append, hnil]
  rfl

theorem mem_trimEnd_iff {c : Char} (hc : isWhiteSpace c) {cs : List Char} :
    c ∈ trimEnd cs ↔ ∃ before after, cs = before ++ c :: after ∧ ¬ Blank after := by
  induction cs with
  | nil => simp [trimEnd]
  | cons d cs ih =>
    by_cases hblank : Blank cs
    · have htrim : trimEnd (d :: cs) = trimEnd [d] := trimEnd_append_of_blank hblank [d]
      have hsub : trimEnd [d] ⊆ [d] := by
        cases hd : isWhiteSpace d <;> simp [trimEnd, hd]
      have hmem : c ∉ trimEnd [d] := by
        intro h
        obtain rfl := List.mem_singleton.1 (hsub h)
        simp [trimEnd, hc] at h
      rw [htrim]
      refine iff_of_false hmem ?_
      rintro ⟨before, after, hcs, hafter⟩
      cases before with
      | nil => exact hafter ((List.cons.inj hcs).2 ▸ hblank)
      | cons b before =>
        have htail : cs = before ++ c :: after := (List.cons.inj hcs).2
        rw [htail, blank_append_iff] at hblank
        exact hafter (List.forall_mem_cons.1 hblank.2).2
    · have htrim : trimEnd (d :: cs) = d :: trimEnd cs := trimEnd_append_of_not_blank hblank [d]
      rw [htrim, List.mem_cons, ih]
      constructor
      · rintro (rfl | ⟨before, after, rfl, hafter⟩)
        · exact ⟨[], cs, rfl, hblank⟩
        · exact ⟨d :: before, after, rfl, hafter⟩
      · rintro ⟨before, after, hcs, hafter⟩
        cases before with
        | nil => exact Or.inl (List.cons.inj hcs).1.symm
        | cons b before => exact Or.inr ⟨before, after, (List.cons.inj hcs).2, hafter⟩

theorem trimEnd_subset (cs : List Char) : trimEnd cs ⊆ cs := by
  intro c hc
  exact List.mem_reverse.1 ((List.dropWhile_sublist _).subset (List.mem_reverse.1 hc))

/-! ## Lines -/

theorem trimEnd_dropReturn (line : List Char) :
    trimEnd ((dropLast? '\r' line).getD line) = trimEnd line := by
  cases h : dropLast? '\r' line with
  | none => rfl
  | some start =>
    obtain rfl := dropLast?_eq_some_iff.1 h
    exact (trimEnd_append_of_blank (by simp [Blank]; decide) start).symm

/-- The pieces of a text between its line feeds, without an empty one at the end. -/
def linePieces (cs : List Char) : List (List Char) :=
  if (split '\n' cs).getLast? = some [] then (split '\n' cs).dropLast else split '\n' cs

theorem map_trimEnd_lines (cs : List Char) :
    (lines cs).map trimEnd = (linePieces cs).map trimEnd := by
  have hne := split_ne_nil '\n' cs
  have hlast := List.getLast?_eq_some_getLast hne
  have hended : ((split '\n' cs).dropLast.map fun line => (dropLast? '\r' line).getD line).map
      trimEnd = (split '\n' cs).dropLast.map trimEnd := by
    rw [List.map_map]
    exact List.map_congr_left fun line _ => trimEnd_dropReturn line
  simp only [lines, linePieces, hlast, Option.getD_some, List.isEmpty_iff, Option.some.injEq]
  split
  · exact hended
  · rw [List.map_append, hended, List.map_singleton, ← List.map_singleton, ← List.map_append,
      List.dropLast_append_getLast]

theorem mem_linePieces {cs piece : List Char} (h : piece ∈ linePieces cs) :
    piece ∈ split '\n' cs := by
  rw [linePieces] at h
  split at h
  · exact List.mem_of_mem_dropLast h
  · exact h

theorem mem_linePieces_of_ne_nil {cs piece : List Char} (h : piece ∈ split '\n' cs)
    (hne : piece ≠ []) : piece ∈ linePieces cs := by
  rw [linePieces]
  split
  · rename_i hlast
    rw [← List.dropLast_append_getLast? [] hlast, List.mem_append, List.mem_singleton] at h
    exact h.resolve_right hne
  · exact h

/-! ## Pieces -/

theorem infix_join {sep part : List Char} {parts : List (List Char)} (h : part ∈ parts) :
    part <:+: join sep parts := by
  induction parts with
  | nil => exact absurd h List.not_mem_nil
  | cons first parts ih =>
    cases parts with
    | nil =>
      obtain rfl := List.mem_singleton.1 h
      exact List.infix_refl _
    | cons next parts =>
      rw [join_cons_of_ne_nil (List.cons_ne_nil next parts), List.append_assoc]
      rcases List.mem_cons.1 h with rfl | h
      · exact (List.prefix_append _ _).isInfix
      · exact (ih h).trans ((List.suffix_append _ _).trans (List.suffix_append _ _)).isInfix

theorem split_append_of_not_mem {sep : Char} {part : List Char} (h : sep ∉ part)
    (cs : List Char) : ∃ piece pieces, split sep (part ++ cs) = (part ++ piece) :: pieces := by
  induction part with
  | nil =>
    obtain ⟨piece, pieces, hsplit⟩ := List.exists_cons_of_ne_nil (split_ne_nil sep cs)
    exact ⟨piece, pieces, hsplit⟩
  | cons c part ih =>
    rw [List.mem_cons, not_or] at h
    obtain ⟨piece, pieces, hsplit⟩ := ih h.2
    exact ⟨piece, pieces, by rw [List.cons_append, split, if_neg (Ne.symm h.1), hsplit]; rfl⟩

theorem exists_mem_split_iff {sep : Char} {part cs : List Char} (h : sep ∉ part) :
    (∃ piece ∈ split sep cs, part <:+: piece) ↔ part <:+: cs := by
  constructor
  · rintro ⟨piece, hpiece, hpart⟩
    have hjoin : piece <:+: join [sep] (split sep cs) := infix_join hpiece
    rw [join_split] at hjoin
    exact hpart.trans hjoin
  · rintro ⟨before, after, rfl⟩
    rw [List.append_assoc]
    induction before with
    | nil =>
      obtain ⟨piece, pieces, hsplit⟩ := split_append_of_not_mem h after
      rw [List.nil_append, hsplit]
      exact ⟨_, List.mem_cons_self, (List.prefix_append part piece).isInfix⟩
    | cons b before ih =>
      obtain ⟨piece, hpiece, hpart⟩ := ih
      obtain ⟨next, pieces, hsplit⟩ :=
        List.exists_cons_of_ne_nil (split_ne_nil sep (before ++ (part ++ after)))
      rw [hsplit] at hpiece
      rw [List.cons_append, split, hsplit]
      split
      · exact ⟨piece, List.mem_cons_of_mem _ hpiece, hpart⟩
      · rcases List.mem_cons.1 hpiece with rfl | hpiece
        · exact ⟨b :: piece, List.mem_cons_self, List.infix_cons hpart⟩
        · exact ⟨piece, List.mem_cons_of_mem _ hpiece, hpart⟩

/-- A carriage return with something else than white space after it on its line. -/
def ReturnsInside (cs : List Char) : Prop :=
  ∃ between c, '\n' ∉ between ∧ ¬ isWhiteSpace c ∧ ('\r' :: between ++ [c]) <:+: cs

theorem return_mem_trimEnd_iff {piece : List Char} : '\r' ∈ trimEnd piece ↔
    ∃ between c, ¬ isWhiteSpace c ∧ ('\r' :: between ++ [c]) <:+: piece := by
  rw [mem_trimEnd_iff (by decide)]
  constructor
  · rintro ⟨before, after, rfl, hafter⟩
    simp only [Blank, not_forall] at hafter
    obtain ⟨c, hc, hne⟩ := hafter
    obtain ⟨between, rest, rfl⟩ := List.append_of_mem hc
    exact ⟨between, c, hne, before, rest, by simp⟩
  · rintro ⟨between, c, hne, before, rest, rfl⟩
    exact ⟨before, between ++ c :: rest, by simp, fun h => hne (h c (by simp))⟩

end Text

/-- The lines of a documentation are its pieces between line feeds, without white space at
their ends.  An empty piece at the end is no line. -/
theorem toList_docLines (doc : String) :
    (docLines doc).map String.toList = (linePieces doc.toList).map trimEnd := by
  rw [← map_trimEnd_lines, docLines, stringLines, List.map_map, List.map_map]
  refine List.map_congr_left fun line _ => ?_
  simp [trimEndString]

theorem docLines_eq (doc : String) :
    docLines doc = (linePieces doc.toList).map fun piece => String.ofList (trimEnd piece) := by
  have hlines := congrArg (List.map String.ofList) (toList_docLines doc)
  simpa only [List.map_map, Function.comp_def, String.ofList_toList, List.map_id'] using hlines

theorem not_mem_of_mem_docLines {doc line : String} (h : line ∈ docLines doc) :
    '\n' ∉ line.toList := by
  have hline := List.mem_map_of_mem (f := String.toList) h
  rw [toList_docLines] at hline
  obtain ⟨piece, hpiece, hline⟩ := List.mem_map.1 hline
  rw [← hline]
  exact fun hmem => (mem_split (mem_linePieces hpiece)).1 (trimEnd_subset piece hmem)

/-- The carriage returns that stay in a documentation. -/
theorem return_mem_docLines_iff {doc : String} :
    (∃ line ∈ docLines doc, '\r' ∈ line.toList) ↔ ReturnsInside doc.toList := by
  have hlines : (∃ line ∈ docLines doc, '\r' ∈ line.toList) ↔
      ∃ piece ∈ linePieces doc.toList, '\r' ∈ trimEnd piece := by
    have hmap : (∃ line ∈ (docLines doc).map String.toList, '\r' ∈ line) ↔
        ∃ line ∈ (linePieces doc.toList).map trimEnd, '\r' ∈ line := by rw [toList_docLines]
    simpa only [List.mem_map, exists_exists_and_eq_and] using hmap
  have hpart : ∀ {between : List Char} {c : Char}, ¬ isWhiteSpace c → '\n' ∉ between →
      '\n' ∉ '\r' :: between ++ [c] := by
    intro between c hc hbetween
    have hne : '\n' ≠ c := by rintro rfl; exact hc (by decide)
    simp [hbetween, hne]
  rw [hlines]
  constructor
  · rintro ⟨piece, hpiece, hreturn⟩
    obtain ⟨between, c, hc, hin⟩ := return_mem_trimEnd_iff.1 hreturn
    have hsplit := mem_linePieces hpiece
    have hbetween : '\n' ∉ between := fun h =>
      (mem_split hsplit).1 (hin.subset (by simp [h]))
    exact ⟨between, c, hbetween, hc,
      (exists_mem_split_iff (hpart hc hbetween)).1 ⟨piece, hsplit, hin⟩⟩
  · rintro ⟨between, c, hbetween, hc, hin⟩
    obtain ⟨piece, hpiece, hin⟩ := (exists_mem_split_iff (hpart hc hbetween)).2 hin
    have hne : piece ≠ [] := by
      rintro rfl
      simp at hin
    exact ⟨piece, mem_linePieces_of_ne_nil hpiece hne,
      return_mem_trimEnd_iff.2 ⟨between, c, hc, hin⟩⟩

end LayeredConfig
