import LayeredConfig.Proofs.Message.Precedence

/-!
# What is set stays set

`Content.Keeps` says of one field that a later state holds on to what an earlier
one had set, and `Tree.Keeps` says it of every field behind every way that led
somewhere.  It is a preorder on trees.  A single overlay only moves up in it
(`Tree.keeps_overlay`), and so does a run of overlays, whatever environments,
stems and defaults they come with.  An overlay that is repeated has nothing left
to fill (`Tree.overlay_overlay`).
-/

namespace LayeredConfig

namespace Content

/-- Whether a later state of a field keeps what an earlier one had set. -/
def Keeps : (content : Content) → (earlier later : content.Slot) → Prop
  | plain (.leaf _), earlier, later => ∀ value, earlier = some value → later = some value
  | plain (.list _), earlier, later => earlier ≠ [] → later = earlier
  | plain (.map _ _), earlier, later =>
    ∀ key value, earlier.find? key = some value → later.find? key = some value
  | nested _, earlier, later => earlier.isSome → later.isSome
  | nestedList _, earlier, later => earlier ≠ [] → later = earlier

variable {content : Content} {earlier later last : content.Slot}

theorem Keeps.refl (slot : content.Slot) : content.Keeps slot slot := by
  cases content with
  | plain kind =>
    cases kind with
    | leaf type => exact fun _ h => h
    | list type => exact fun _ => rfl
    | map key value => exact fun _ _ h => h
  | nested message => exact fun h => h
  | nestedList message => exact fun _ => rfl

theorem Keeps.trans (h : content.Keeps earlier later) (h' : content.Keeps later last) :
    content.Keeps earlier last := by
  cases content with
  | plain kind =>
    cases kind with
    | leaf type => exact fun value hvalue => h' value (h value hvalue)
    | list type =>
      intro hne
      have hlater : later = earlier := h hne
      subst hlater
      exact h' hne
    | map key value => exact fun k v hentry => h' k v (h k v hentry)
  | nested message => exact fun hsome => h' (h hsome)
  | nestedList message =>
    intro hne
    have hlater : later = earlier := h hne
    subst hlater
    exact h' hne

theorem keeps_of_filled {env : Environment} {name : String} {own defaults filled : content.Slot}
    (h : content.Filled env name own defaults filled) : content.Keeps own filled := by
  cases content with
  | plain kind =>
    cases kind with
    | leaf type =>
      rintro value rfl
      exact filled_leaf_iff.1 h
    | list type =>
      intro hne
      exact (filled_list_iff.1 h).trans (firstFilled_of_ne_nil hne _)
    | map key value =>
      intro k v hentry
      have hfind := h k
      rw [hentry] at hfind
      exact hfind
  | nested message => exact fun _ => h
  | nestedList message =>
    intro hne
    exact Eq.trans h (firstFilled_of_ne_nil hne _)

end Content

/-- One call of the overlay: where it reads from and how its variables begin. -/
structure Layer (fields : Fields) where
  env : Environment
  stem : String
  defaults : Option (Tree fields)

namespace Tree

variable {fields : Fields}

/-- Whether everything that is set in an earlier tree, at any depth, is held by a
later one. -/
def Keeps (earlier later : Tree fields) : Prop :=
  ∀ (target : Fields) (way : Way fields target) (reached : Tree target),
    way.reach? earlier = some reached →
    ∃ kept, way.reach? later = some kept ∧
      ∀ (field : Field) (place : Place target field),
        field.content.Keeps (reached.slot place) (kept.slot place)

theorem Keeps.refl (tree : Tree fields) : tree.Keeps tree :=
  fun _ _ reached h => ⟨reached, h, fun _ _ => Content.Keeps.refl _⟩

theorem Keeps.trans {earlier later last : Tree fields} (h : earlier.Keeps later)
    (h' : later.Keeps last) : earlier.Keeps last := by
  intro target way reached hreached
  obtain ⟨kept, hkept, hslots⟩ := h target way reached hreached
  obtain ⟨final, hfinal, hslots'⟩ := h' target way kept hkept
  exact ⟨final, hfinal, fun field place => (hslots field place).trans (hslots' field place)⟩

theorem keeps_overlay (tree : Tree fields) (env : Environment) (stem : String)
    (defaults : Option (Tree fields)) : tree.Keeps (tree.overlay env stem defaults) := by
  intro target way reached hreached
  refine ⟨_, reach?_fill env way stem defaults tree, fun field place => ?_⟩
  rw [hreached]
  exact Content.keeps_of_filled (slot_fill env place _ _ reached)

def overlays (tree : Tree fields) (layers : List (Layer fields)) : Tree fields :=
  layers.foldl (fun tree layer => tree.overlay layer.env layer.stem layer.defaults) tree

@[simp] theorem overlays_nil (tree : Tree fields) : tree.overlays [] = tree := rfl

@[simp] theorem overlays_cons (tree : Tree fields) (layer : Layer fields)
    (layers : List (Layer fields)) :
    tree.overlays (layer :: layers) =
      (tree.overlay layer.env layer.stem layer.defaults).overlays layers := rfl

theorem overlays_append (tree : Tree fields) (layers more : List (Layer fields)) :
    tree.overlays (layers ++ more) = (tree.overlays layers).overlays more :=
  List.foldl_append

theorem keeps_overlays (tree : Tree fields) (layers : List (Layer fields)) :
    tree.Keeps (tree.overlays layers) := by
  induction layers generalizing tree with
  | nil => exact Keeps.refl tree
  | cons layer layers ih =>
    rw [overlays_cons]
    exact (tree.keeps_overlay layer.env layer.stem layer.defaults).trans (ih _)

end Tree

/-! ## Repeating an overlay -/

theorem SortedMap.fillFrom_fillFrom {α β : Type} [Ord α] [Std.TransOrd α] [Std.LawfulEqOrd α]
    (m n : SortedMap α β) : (m.fillFrom n).fillFrom n = m.fillFrom n := by
  refine ext_find? fun key => ?_
  rw [find?_fillFrom, find?_fillFrom, Option.or_assoc, Option.or_self]

theorem Kind.fill_fill (env : Environment) (name : String) (kind : Kind)
    (defaults : Option kind.Slot) (slot : kind.Slot) :
    kind.fill env name defaults (kind.fill env name defaults slot) =
      kind.fill env name defaults slot := by
  cases kind with
  | leaf type =>
    rw [fill, fill]
    cases (slot : Option type.Val) with
    | none => rw [Option.none_or, Option.or_self]
    | some value => rfl
  | list type =>
    rw [fill, fill]
    cases (slot : List type.Val) with
    | nil => exact ite_self _
    | cons value values => rfl
  | map key value =>
    cases defaults with
    | none => rfl
    | some entries => exact slot.fillFrom_fillFrom entries

namespace Tree

theorem fill_fill (env : Environment) (fields : Fields) (stem : String)
    (defaults : Option (Tree fields)) (tree : Tree fields) :
    fill env fields stem defaults (fill env fields stem defaults tree) =
      fill env fields stem defaults tree := by
  induction fields generalizing stem with
  | nil => rfl
  | plain field kind rest ih =>
    exact Prod.ext (kind.fill_fill env _ _ tree.1) (ih stem _ tree.2)
  | nested field message sub rest ihsub ih =>
    exact Prod.ext (congrArg some (ihsub _ _ _)) (ih stem _ tree.2)
  | nestedList field message sub rest _ ih =>
    obtain ⟨slot, tree⟩ := tree
    refine Prod.ext ?_ (ih stem _ tree)
    cases slot with
    | nil => exact ite_self _
    | cons item items => rfl

theorem overlay_overlay {fields : Fields} (tree : Tree fields) (env : Environment) (stem : String)
    (defaults : Option (Tree fields)) :
    (tree.overlay env stem defaults).overlay env stem defaults =
      tree.overlay env stem defaults :=
  fill_fill env fields stem defaults tree

/-- A run of overlays, each with an environment, a stem and defaults of its own.  Whatever is
set at some point of the run, by the tree or by an overlay, stays as it is to its end, and a
last overlay that is run once more changes nothing. -/
theorem overlays_frozen (message : Message) (tree : Tree message.fields)
    (earlier later : List (Layer message.fields)) :
    (tree.overlays earlier).Keeps (tree.overlays (earlier ++ later)) ∧
      ∀ layer, tree.overlays (earlier ++ [layer, layer]) = tree.overlays (earlier ++ [layer]) := by
  refine ⟨?_, fun layer => ?_⟩
  · rw [overlays_append]
    exact (tree.overlays earlier).keeps_overlays later
  · have hrepeat := (tree.overlays earlier).overlay_overlay layer.env layer.stem layer.defaults
    simpa only [overlays_append, overlays_cons, overlays_nil] using hrepeat

end Tree

end LayeredConfig
