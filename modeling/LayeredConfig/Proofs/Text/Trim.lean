import Mathlib.Data.List.Basic
import Mathlib.Data.List.TakeWhile
import LayeredConfig.Text.Split
import LayeredConfig.Text.WhiteSpace

/-!
# Texts between white space

`Padded text core` says that a text is `core` with white space around it, and
`Tight core` that there is none at its own ends.  Trimming finds the tight text
of a padded one (`trim_eq_iff`).  The functions that cut a text are inverted here
as well: each gives parts exactly when they make up the text.
-/

namespace LayeredConfig.Text

def Blank (cs : List Char) : Prop := ∀ c ∈ cs, isWhiteSpace c

instance instDecidableBlank (cs : List Char) : Decidable (Blank cs) :=
  decidable_of_iff (cs.all isWhiteSpace = true) List.all_eq_true

/-- `core` with white space around it. -/
def Padded (text core : List Char) : Prop :=
  ∃ before after, Blank before ∧ Blank after ∧ text = before ++ core ++ after

/-- A text that neither begins nor ends with white space. -/
structure Tight (core : List Char) : Prop where
  head : ∀ c ∈ core.head?, ¬ isWhiteSpace c
  last : ∀ c ∈ core.getLast?, ¬ isWhiteSpace c

theorem tight_singleton {c : Char} (h : ¬ isWhiteSpace c) : Tight [c] :=
  ⟨fun _ hc => Option.some.inj hc ▸ h, fun _ hc => Option.some.inj hc ▸ h⟩

theorem tight_of_forall_mem {cs : List Char} (h : ∀ c ∈ cs, ¬ isWhiteSpace c) : Tight cs :=
  ⟨fun c hc => h c (List.mem_of_head? hc), fun c hc => h c (List.mem_of_getLast? hc)⟩

theorem Tight.append {start core : List Char} (hstart : Tight start) (hcore : Tight core)
    (hne : start ≠ []) (hne' : core ≠ []) (gap : List Char) : Tight (start ++ gap ++ core) := by
  refine ⟨fun c hc => hstart.head c ?_, fun c hc => hcore.last c ?_⟩
  · obtain ⟨s, start, rfl⟩ := List.exists_cons_of_ne_nil hne
    exact hc
  · rwa [List.getLast?_append_of_ne_nil _ hne'] at hc

theorem blank_nil : Blank [] := fun _ h => absurd h List.not_mem_nil

theorem blank_append_iff {cs more : List Char} : Blank (cs ++ more) ↔ Blank cs ∧ Blank more :=
  List.forall_mem_append

theorem Blank.not_mem {cs : List Char} (h : Blank cs) {c : Char} (hc : isWhiteSpace c = false) :
    c ∉ cs :=
  fun hmem => Bool.false_ne_true (hc.symm.trans (h c hmem))

theorem blank_reverse_iff {cs : List Char} : Blank cs.reverse ↔ Blank cs := by
  simp [Blank]

theorem trimStart_append_of_blank {before : List Char} (h : Blank before) (cs : List Char)
    (hcs : ∀ c ∈ cs.head?, ¬ isWhiteSpace c) : trimStart (before ++ cs) = cs := by
  induction before with
  | nil =>
    cases cs with
    | nil => rfl
    | cons c cs => exact List.dropWhile_cons_of_neg (hcs c rfl)
  | cons b before ih =>
    obtain ⟨hb, hbefore⟩ := List.forall_mem_cons.1 h
    exact (List.dropWhile_cons_of_pos hb).trans (ih hbefore)

theorem exists_blank_append_trimStart (cs : List Char) :
    ∃ before, Blank before ∧ cs = before ++ trimStart cs ∧
      ∀ c ∈ (trimStart cs).head?, ¬ isWhiteSpace c := by
  refine ⟨cs.takeWhile isWhiteSpace, fun _ => List.mem_takeWhile_imp,
    List.takeWhile_append_dropWhile.symm, fun c hc => ?_⟩
  have hhead := List.head?_dropWhile_not isWhiteSpace cs
  rw [trimStart] at hc
  rw [Option.mem_def.1 hc] at hhead
  simpa using hhead

theorem padded_trim (text : List Char) : Padded text (trim text) ∧ Tight (trim text) := by
  obtain ⟨before, hbefore, htext, hhead⟩ := exists_blank_append_trimStart text
  obtain ⟨after, hafter, hstart, hlast⟩ := exists_blank_append_trimStart (trimStart text).reverse
  have htrim : trimStart (trimStart text).reverse = (trim text).reverse := by
    rw [trim, trimEnd, List.reverse_reverse]
    rfl
  rw [htrim] at hstart hlast
  have hsplit : trimStart text = trim text ++ after.reverse := by
    rw [← List.reverse_inj, hstart, List.reverse_append, List.reverse_reverse]
  refine ⟨⟨before, after.reverse, hbefore, blank_reverse_iff.2 hafter, ?_⟩, ⟨fun c hc => ?_, ?_⟩⟩
  · rw [List.append_assoc, ← hsplit]
    exact htext
  · refine hhead c ?_
    rw [hsplit, List.head?_append, Option.mem_def.1 hc]
    rfl
  · rw [List.head?_reverse] at hlast
    exact hlast

theorem trim_eq_iff {text core : List Char} (h : Tight core) :
    trim text = core ↔ Padded text core := by
  constructor
  · rintro rfl
    exact (padded_trim text).1
  · rintro ⟨before, after, hbefore, hafter, rfl⟩
    rw [trim, List.append_assoc]
    cases core with
    | nil =>
      -- all of the text goes when its start is trimmed
      have hall : Blank (before ++ after) := blank_append_iff.2 ⟨hbefore, hafter⟩
      have hnil := trimStart_append_of_blank hall [] (by simp)
      rw [List.append_nil] at hnil
      rw [List.nil_append, hnil]
      rfl
    | cons c core =>
      have hstart := trimStart_append_of_blank hbefore (c :: core ++ after) h.head
      rw [hstart, trimEnd, List.reverse_append]
      have hdrop := trimStart_append_of_blank (blank_reverse_iff.2 hafter) (c :: core).reverse
        (by rw [List.head?_reverse]; exact h.last)
      exact (congrArg List.reverse hdrop).trans (List.reverse_reverse _)

theorem Padded.refl (text : List Char) : Padded text text :=
  ⟨[], [], blank_nil, blank_nil, by simp⟩

theorem Padded.trans {text inner core : List Char} (h : Padded text inner)
    (h' : Padded inner core) : Padded text core := by
  obtain ⟨before, after, hbefore, hafter, rfl⟩ := h
  obtain ⟨start, stop, hstart, hstop, rfl⟩ := h'
  exact ⟨before ++ start, stop ++ after, blank_append_iff.2 ⟨hbefore, hstart⟩,
    blank_append_iff.2 ⟨hstop, hafter⟩, by simp⟩

theorem trim_trim (text : List Char) : trim (trim text) = trim text :=
  (trim_eq_iff (padded_trim text).2).2 (Padded.refl _)

/-! ## Cutting -/

theorem dropStart?_eq_some_iff {start cs rest : List Char} :
    dropStart? start cs = some rest ↔ cs = start ++ rest := by
  induction start generalizing cs with
  | nil => simp [dropStart?]
  | cons s start ih =>
    cases cs with
    | nil => simp [dropStart?]
    | cons c cs =>
      rw [dropStart?]
      by_cases h : s = c
      · simp [h, ih]
      · simp [h, Ne.symm h]

theorem splitOnce?_eq_some_iff {sep : Char} {cs before after : List Char} :
    splitOnce? sep cs = some (before, after) ↔ sep ∉ before ∧ cs = before ++ sep :: after := by
  induction cs generalizing before with
  | nil => simp [splitOnce?]
  | cons c cs ih =>
    rw [splitOnce?]
    by_cases h : c = sep
    · subst h
      cases before with
      | nil => simp
      | cons b before => simp +contextual
    · cases before with
      | nil => simp [h]
      | cons b before => simp [h, ih]; grind

theorem dropLast?_eq_some_iff {last : Char} {cs start : List Char} :
    dropLast? last cs = some start ↔ cs = start ++ [last] := by
  rw [dropLast?]
  constructor
  · intro h
    split at h
    · rename_i hlast
      obtain rfl := Option.some.inj h
      obtain ⟨start, rfl⟩ := List.getLast?_eq_some_iff.1 hlast
      rw [List.dropLast_concat]
    · exact nomatch h
  · rintro rfl
    simp

end LayeredConfig.Text
