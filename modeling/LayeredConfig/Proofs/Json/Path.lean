import LayeredConfig.Json.Path
import LayeredConfig.Proofs.Assoc
import LayeredConfig.Proofs.Number.Decimal
import LayeredConfig.Proofs.Text.Split
import Mathlib.Data.List.Nodup

/-!
# The dotted text of a path

`Path.places` is a path without its marks.  Its keys and indexes make up the dotted
text, but for the pieces between dots that are a lone question mark: these are left out
with the marks, and so the text is that of the path exactly if no key has such a piece
(`Path.dotted_eq_iff`).
-/

namespace LayeredConfig.Json.Path

open Text

def places (path : Path) : Path := path.filter fun step => step != .present

@[simp] theorem places_nil : places [] = [] := rfl

@[simp] theorem places_append (path more : Path) :
    places (path ++ more) = places path ++ places more := List.filter_append path more

@[simp] theorem places_member (key : String) : places [.member key] = [.member key] := rfl

@[simp] theorem places_item (index : Nat) : places [.item index] = [.item index] := rfl

@[simp] theorem places_present : places [.present] = [] := rfl

/-- The texts between the dots of the written path. -/
def pieces (path : Path) : List String := path.flatMap fun step => splitString '.' step.piece

theorem pieces_filter_places (path : Path) :
    (pieces (places path)).filter (fun piece => piece != "?") =
      (pieces path).filter fun piece => piece != "?" := by
  induction path with
  | nil => rfl
  | cons step path ih =>
    cases step with
    | member key | item index => simpa [places, pieces] using ih
    | present => exact ih

/-- The text of a path has the pieces of its keys and indexes that are no lone question
mark. -/
theorem dotted_eq (path : Path) :
    path.dotted = ".".intercalate ((pieces (places path)).filter fun piece => piece != "?") := by
  rw [pieces_filter_places, dotted]
  cases path with
  | nil => rfl
  | cons step path =>
    have hne : (step :: path).map Step.piece ≠ [] := List.cons_ne_nil _ _
    rw [intercalate_eq_dotted (List.map _ _), splitString_dotted_eq_flatMap hne, pieces,
      List.flatMap_map]

theorem question_not_mem_splitString_index (index : Nat) :
    "?" ∉ splitString '.' (toString index) := by
  intro h
  obtain ⟨cs, hcs, htext⟩ := List.mem_map.1 h
  have hmark : '?' ∈ cs := by
    rw [← String.toList_ofList (l := cs), htext]
    exact List.mem_singleton_self _
  have hdigit : '?' ∈ Nat.toDigits 10 index := by
    rw [← Nat.toList_repr]
    exact (mem_split hcs).2 hmark
  exact absurd (isDigit_of_mem_toDigits hdigit) (by decide)

/-- The text of a path says the keys and indexes of the path exactly if no key has a lone
question mark between its dots. -/
theorem dotted_eq_iff {path : Path} (hne : places path ≠ []) :
    path.dotted = ".".intercalate ((places path).map Step.piece) ↔
      ∀ key, .member key ∈ path → "?" ∉ splitString '.' key := by
  have hpieces : pieces (places path) ≠ [] := by
    obtain ⟨step, steps, hpath⟩ := List.exists_cons_of_ne_nil hne
    rw [hpath, pieces, List.flatMap_cons]
    exact List.append_ne_nil_of_left_ne_nil (splitString_ne_nil _ _) _
  have hcut : ∀ piece ∈ pieces (places path), '.' ∉ piece.toList := by
    intro piece hpiece
    obtain ⟨step, -, hpiece⟩ := List.mem_flatMap.1 hpiece
    exact not_mem_of_mem_splitString hpiece
  have htext : Text.dotted ((places path).map Step.piece) = Text.dotted (pieces (places path)) := by
    have hmap : (places path).map Step.piece ≠ [] := mt List.map_eq_nil_iff.1 hne
    rw [← dotted_splitString (Text.dotted (List.map _ _)), splitString_dotted_eq_flatMap hmap,
      List.flatMap_map, pieces]
  rw [dotted_eq, intercalate_eq_dotted, intercalate_eq_dotted, htext,
    dotted_filter_eq_iff hpieces hcut (by decide)]
  constructor
  · intro h key hkey hmark
    have hplace : Step.member key ∈ places path := List.mem_filter.2 ⟨hkey, rfl⟩
    exact absurd (h "?" (List.mem_flatMap.2 ⟨_, hplace, hmark⟩)) (by decide)
  · intro h piece hpiece
    obtain ⟨step, hstep, hpiece⟩ := List.mem_flatMap.1 hpiece
    obtain ⟨hstep, hmark⟩ := List.mem_filter.1 hstep
    refine bne_iff_ne.2 fun heq => ?_
    subst heq
    cases step with
    | member key => exact h key hstep hpiece
    | item index => exact question_not_mem_splitString_index index hpiece
    | present => exact absurd hmark (by decide)

/-! ## Paths that begin with different steps -/

section Steps

variable {α : Type} {parts : List α} {step : α → Step} {inner : α → List Path}

theorem mem_flatMap_cons {path : Path} :
    path ∈ (parts.flatMap fun a => (inner a).map (step a :: ·)) ↔
      ∃ a ∈ parts, ∃ rest, path = step a :: rest ∧ rest ∈ inner a := by
  simp only [List.mem_flatMap, List.mem_map]
  refine exists_congr fun a => and_congr_right fun _ => exists_congr fun rest => ?_
  exact and_comm.trans (and_congr_left fun _ => eq_comm)

theorem nodup_flatMap_cons (hsteps : (parts.map step).Nodup)
    (hinner : ∀ a ∈ parts, (inner a).Nodup) :
    (parts.flatMap fun a => (inner a).map (step a :: ·)).Nodup := by
  rw [List.nodup_flatMap]
  refine ⟨fun a ha => (hinner a ha).map List.cons_injective, ?_⟩
  refine (List.pairwise_map.1 hsteps).imp fun hne path hpath hpath' => hne ?_
  obtain ⟨rest, -, rfl⟩ := List.mem_map.1 hpath
  obtain ⟨rest', -, heq⟩ := List.mem_map.1 hpath'
  exact (List.cons.inj heq).1.symm

theorem nodup_map_item {β : Type} (items : List β) :
    (items.zipIdx.map fun e => Step.item e.2).Nodup := by
  have hindexes : (items.zipIdx.map Prod.snd).Nodup := by
    rw [List.zipIdx_map_snd]
    exact List.nodup_range'
  have hsteps := hindexes.map (f := Step.item) fun _ _ h => Step.item.inj h
  rwa [List.map_map] at hsteps

theorem nodup_map_member {members : Members} (hsorted : Assoc.Sorted members) :
    (members.map fun m => Step.member m.1).Nodup := by
  have hsteps := hsorted.nodup_keys.map (f := Step.member) fun _ _ h => Step.member.inj h
  rwa [Assoc.keys, List.map_map] at hsteps

end Steps

end LayeredConfig.Json.Path
