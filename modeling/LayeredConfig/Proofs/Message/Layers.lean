import LayeredConfig.Proofs.Message.Merge
import LayeredConfig.Proofs.Message.Precedence

/-!
# A file over a tree over the environment

Merging, like filling, is one law at every depth.  The slots at the end of a
way are merged by the rule for their kind of field, where a tree that the way
does not go through counts as unset (`held_mergeNested`).  Together with the
law of filling this makes four tiers, and `Content.Layered` states for each
kind of field which of them wins.
-/

namespace LayeredConfig

namespace Content

def merge : (content : Content) → (below above : content.Slot) → content.Slot
  | plain kind, below, above => kind.merge below above
  | nested message, below, above => Tree.mergeNested (Tree.merge message.fields) below above
  | nestedList _, below, above => if above.isEmpty then below else above

theorem merge_unset_left (content : Content) (above : content.Slot) :
    content.merge content.unset above = above := by
  cases content with
  | plain kind => exact kind.merge_unset_left above
  | nested message => rfl
  | nestedList message => cases above <;> rfl

theorem merge_unset_right (content : Content) (below : content.Slot) :
    content.merge below content.unset = below := by
  cases content with
  | plain kind => exact kind.merge_unset_right below
  | nested message => cases below <;> rfl
  | nestedList message => rfl

/-- What `filled` has to be for a field, given the name of its variable and what the file,
the tree (`own`) and the defaults held. -/
def Layered (env : Environment) (name : String) :
    (content : Content) → (file own defaults filled : content.Slot) → Prop
  | plain (.leaf type), file, own, defaults, filled =>
    ∃ read, env.ReadsAs name type read ∧ filled = file.or (own.or (read.or defaults))
  | plain (.list type), file, own, defaults, filled =>
    ∃ read, env.ReadsAsList name type read ∧ filled = firstFilled [file, own, read, defaults]
  | plain (.map _ _), file, own, defaults, filled =>
    ∀ key, filled.find? key = (file.find? key).or ((own.find? key).or (defaults.find? key))
  | nested _, _, _, _, filled => filled.isSome
  | nestedList _, file, own, defaults, filled => filled = firstFilled [file, own, defaults]

theorem firstFilled_merge {α : Type} (below above : List α) (lists : List (List α)) :
    firstFilled ((if above.isEmpty then below else above) :: lists) =
      firstFilled (above :: below :: lists) := by
  cases above with
  | nil => rfl
  | cons a above => rfl

/-- Filling what was merged takes the first of the four tiers that sets the field. -/
theorem layered_of_filled {env : Environment} {name : String} {content : Content}
    {file own defaults filled : content.Slot}
    (h : content.Filled env name (content.merge own file) defaults filled) :
    content.Layered env name file own defaults filled := by
  cases content with
  | plain kind =>
    cases kind with
    | leaf type =>
      obtain ⟨read, hread, hfilled⟩ := h
      rw [merge, Kind.merge, Option.or_assoc] at hfilled
      exact ⟨read, hread, hfilled⟩
    | list type =>
      obtain ⟨read, hread, hfilled⟩ := h
      exact ⟨read, hread, hfilled.trans (firstFilled_merge own file _)⟩
    | map key value =>
      intro k
      have hown : ((Content.plain (.map key value)).merge own file).find? k =
          (file.find? k).or (own.find? k) := SortedMap.find?_merge own file k
      rw [← Option.or_assoc, ← hown]
      exact h k
  | nested message => exact h
  | nestedList message => exact Eq.trans h (firstFilled_merge own file _)

end Content

namespace Tree

theorem slot_merge {fields : Fields} {field : Field} (place : Place fields field)
    (base upper : Tree fields) :
    (merge fields base upper).slot place =
      field.content.merge (base.slot place) (upper.slot place) := by
  induction place with
  | plain | nested | nestedList => rfl
  | afterPlain place ih | afterNested place ih | afterNestedList place ih =>
    exact ih base.2 upper.2

theorem reach?_merge {fields target : Fields} (way : Way fields target)
    (base upper : Tree fields) :
    way.reach? (merge fields base upper) =
      mergeNested (merge target) (way.reach? base) (way.reach? upper) := by
  induction way with
  | stay fields => rfl
  | into field message place way ih =>
    have hslot : (merge _ base upper).slot place = mergeNested (merge message.fields)
        (base.slot place) (upper.slot place) := slot_merge place base upper
    rw [Way.reach?_into, Way.reach?_into, Way.reach?_into, hslot]
    generalize (base.slot place : Option (Tree message.fields)) = below
    generalize (upper.slot place : Option (Tree message.fields)) = above
    cases above with
    | none =>
      cases below with
      | none => rfl
      | some below => cases h : way.reach? below <;> simp [mergeNested, h]
    | some above =>
      cases below with
      | none => rfl
      | some below => exact ih below above

end Tree

theorem Place.held_mergeNested {fields : Fields} {field : Field} (place : Place fields field)
    (below above : Option (Tree fields)) :
    place.held (Tree.mergeNested (Tree.merge fields) below above) =
      field.content.merge (place.held below) (place.held above) := by
  cases above with
  | none =>
    rw [held_none, Content.merge_unset_right]
    cases below <;> rfl
  | some above =>
    cases below with
    | none => exact (Content.merge_unset_left _ _).symm
    | some below => exact Tree.slot_merge place below above

/-- The law of the layers.  For every way through nested messages, all of them are there
afterwards; and every field of the message at its end holds what the file held, else what
the tree held, else what its variable denotes, else what the defaults held. -/
theorem Tree.overlay_merge_layers {fields : Fields} (tree file : Tree fields)
    (env : Environment) (stem : String) (defaults : Option (Tree fields)) {target : Fields}
    (way : Way fields target) :
    ∃ reached, way.reach? ((Tree.merge _ tree file).overlay env stem defaults) = some reached ∧
      ∀ (field : Field) (place : Place target field),
        field.content.Layered env (way.stem stem ++ field.label.envSuffix)
          (place.held (way.reach? file)) (place.held (way.reach? tree))
          (place.held (defaults.bind way.reach?)) (reached.slot place) := by
  refine ⟨_, Tree.reach?_fill env way stem defaults _, fun field place => ?_⟩
  have hfilled := Tree.slot_fill env place (way.stem stem) (defaults.bind way.reach?)
    ((way.reach? (Tree.merge _ tree file)).getD (Tree.empty target))
  have hheld : place.held (way.reach? (Tree.merge _ tree file)) =
      field.content.merge (place.held (way.reach? tree)) (place.held (way.reach? file)) := by
    rw [Tree.reach?_merge, place.held_mergeNested]
  rw [place.slot_getD_empty, hheld] at hfilled
  exact Content.layered_of_filled hfilled

end LayeredConfig
