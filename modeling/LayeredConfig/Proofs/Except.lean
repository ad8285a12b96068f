import Mathlib.Data.List.Forall2

/-!
# Computations that can fail

When a sequence of steps succeeds, and when a step succeeds on every element of
a list.
-/

namespace LayeredConfig

variable {ε α β : Type}

theorem bind_eq_ok_iff {x : Except ε α} {f : α → Except ε β} {b : β} :
    x >>= f = .ok b ↔ ∃ a, x = .ok a ∧ f a = .ok b := by
  cases x with
  | error e => simp [Bind.bind, Except.bind]
  | ok a => simp [Bind.bind, Except.bind]

theorem mapM_eq_ok_iff {f : α → Except ε β} {items : List α} {values : List β} :
    items.mapM f = .ok values ↔ List.Forall₂ (fun a b => f a = .ok b) items values := by
  induction items generalizing values with
  | nil =>
    rw [List.mapM_nil, List.forall₂_nil_left_iff]
    exact ⟨fun h => (Except.ok.inj h).symm, fun h => congrArg _ h.symm⟩
  | cons a items ih =>
    rw [List.mapM_cons, List.forall₂_cons_left_iff, bind_eq_ok_iff]
    constructor
    · rintro ⟨b, hb, h⟩
      obtain ⟨bs, hbs, h⟩ := bind_eq_ok_iff.1 h
      exact ⟨b, bs, hb, ih.1 hbs, (Except.ok.inj h).symm⟩
    · rintro ⟨b, bs, hb, hbs, rfl⟩
      exact ⟨b, hb, bind_eq_ok_iff.2 ⟨bs, ih.2 hbs, rfl⟩⟩

theorem mapM_eq_ok_map {γ : Type} {f : β → Except ε γ} {g : α → β} {v : α → γ} {items : List α}
    (h : ∀ a ∈ items, f (g a) = .ok (v a)) : (items.map g).mapM f = .ok (items.map v) := by
  rw [mapM_eq_ok_iff, List.forall₂_map_left_iff, List.forall₂_map_right_iff]
  exact List.forall₂_same.2 h

/-- A step that succeeds exactly where `P` holds and then comes to what `g`
picks out. -/
theorem mapM_eq_ok_iff_filterMap {f : α → Except ε β} {g : α → Option β} {P : α → Prop}
    {items : List α} (hsome : ∀ a ∈ items, ∃ b, g a = some b)
    (hstep : ∀ a ∈ items, ∀ b, f a = .ok b ↔ P a ∧ g a = some b) {values : List β} :
    items.mapM f = .ok values ↔ (∀ a ∈ items, P a) ∧ items.filterMap g = values := by
  induction items generalizing values with
  | nil =>
    rw [List.mapM_nil]
    exact ⟨fun h => ⟨nofun, Except.ok.inj h⟩, fun h => congrArg _ h.2⟩
  | cons a items ih =>
    obtain ⟨⟨b, hb⟩, hsome⟩ := List.forall_mem_cons.1 hsome
    obtain ⟨ha, hstep⟩ := List.forall_mem_cons.1 hstep
    rw [List.mapM_cons, bind_eq_ok_iff, List.forall_mem_cons, List.filterMap_cons_some hb]
    constructor
    · rintro ⟨c, hc, h⟩
      obtain ⟨hP, hc⟩ := (ha c).1 hc
      obtain rfl := Option.some.inj (hb.symm.trans hc)
      obtain ⟨others, hothers, h⟩ := bind_eq_ok_iff.1 h
      obtain rfl := Except.ok.inj h
      obtain ⟨hall, rfl⟩ := (ih hsome hstep).1 hothers
      exact ⟨⟨hP, hall⟩, rfl⟩
    · rintro ⟨⟨hP, hall⟩, rfl⟩
      have hothers := (ih hsome hstep).2 ⟨hall, rfl⟩
      exact ⟨b, (ha b).2 ⟨hP, hb⟩, bind_eq_ok_iff.2 ⟨_, hothers, rfl⟩⟩

theorem ite_error_eq_ok_iff {c : Prop} [Decidable c] {e : ε} {x : Except ε α} {a : α} :
    (if c then .error e else x) = .ok a ↔ ¬ c ∧ x = .ok a := by
  split <;> simp [*]

theorem exists_of_mem_left {R : α → β → Prop} {items : List α} {values : List β}
    (h : List.Forall₂ R items values) {a : α} (ha : a ∈ items) : ∃ b ∈ values, R a b := by
  induction h with
  | nil => exact nomatch ha
  | cons hrel _ ih =>
    rcases List.mem_cons.1 ha with rfl | ha
    · exact ⟨_, List.mem_cons_self, hrel⟩
    · obtain ⟨b, hb, hrel⟩ := ih ha
      exact ⟨b, List.mem_cons_of_mem _ hb, hrel⟩

theorem exists_of_mem_right {R : α → β → Prop} {items : List α} {values : List β}
    (h : List.Forall₂ R items values) {b : β} (hb : b ∈ values) : ∃ a ∈ items, R a b :=
  exists_of_mem_left (R := flip R) h.flip hb

theorem exists_forall₂ {R : α → β → Prop} {items : List α} (h : ∀ a ∈ items, ∃ b, R a b) :
    ∃ values, List.Forall₂ R items values := by
  induction items with
  | nil => exact ⟨[], .nil⟩
  | cons a items ih =>
    obtain ⟨⟨b, hb⟩, h⟩ := List.forall_mem_cons.1 h
    obtain ⟨values, hvalues⟩ := ih h
    exact ⟨b :: values, .cons hb hvalues⟩

theorem map_eq_map_of_forall₂ {γ : Type} {R : α → β → Prop} {f : α → γ} {g : β → γ}
    (hR : ∀ a b, R a b → f a = g b) {items : List α} {values : List β}
    (h : List.Forall₂ R items values) : items.map f = values.map g := by
  rw [← List.forall₂_eq_eq_eq, List.forall₂_map_left_iff, List.forall₂_map_right_iff]
  exact h.imp hR

end LayeredConfig
