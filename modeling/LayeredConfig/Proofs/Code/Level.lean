import LayeredConfig.Code.Module

/-!
# Levels of generated code

Steps are balanced if from any level they come back to it without going above
it.  All generated code is: a block that it opens it closes (`balanced_moduleCode`).
So the lines at the top of a module are those of its parts, and what stands inside
a block is not among them (`topLines_append_of_balanced`).
-/

namespace LayeredConfig.Code

namespace Step

/-- The level after steps from `level`, if they leave no block that they have
not entered. -/
def reach? : Nat → List Step → Option Nat
  | level, [] => some level
  | level, line _ :: steps => reach? level steps
  | level, enter _ :: steps => reach? (level + 1) steps
  | 0, leave _ :: _ => none
  | level + 1, leave _ :: steps => reach? level steps
  | level, deeper :: steps => reach? (level + 1) steps

/-- Steps that come back to the level they begin at. -/
def Balanced (steps : List Step) : Prop := ∀ level, reach? level steps = some level

def topLines : Nat → List Step → List Line
  | _, [] => []
  | 0, line l :: steps => l :: topLines 0 steps
  | level + 1, line _ :: steps => topLines (level + 1) steps
  | 0, enter l :: steps => l :: topLines 1 steps
  | level + 1, enter _ :: steps => topLines (level + 2) steps
  | 0, leave l :: steps => l :: topLines 0 steps
  | 1, leave l :: steps => l :: topLines 0 steps
  | level + 2, leave _ :: steps => topLines (level + 1) steps
  | level, deeper :: steps => topLines (level + 1) steps

theorem reach?_append {steps more : List Step} {level between : Nat}
    (h : reach? level steps = some between) :
    reach? level (steps ++ more) = reach? between more := by
  induction steps generalizing level with
  | nil =>
    obtain rfl := Option.some.inj h
    rfl
  | cons step steps ih =>
    cases step with
    | line _ => exact ih h
    | enter _ => exact ih h
    | deeper => exact ih h
    | leave _ =>
      cases level with
      | zero => exact nomatch h
      | succ level => exact ih h

/-- Where steps lead is the level that a writer comes to. -/
theorem foldl_after_of_reach? {steps : List Step} {level level' : Nat}
    (h : reach? level steps = some level') : steps.foldl Step.after level = level' := by
  induction steps generalizing level with
  | nil => exact Option.some.inj h
  | cons step steps ih =>
    cases step with
    | line _ => exact ih h
    | enter _ => exact ih h
    | deeper => exact ih h
    | leave _ =>
      cases level with
      | zero => exact nomatch h
      | succ level => exact ih h

theorem pos_of_reach?_leave {before after : List Step} {l : Line} {level level' : Nat}
    (h : reach? level (before ++ leave l :: after) = some level') :
    0 < before.foldl Step.after level := by
  induction before generalizing level with
  | nil =>
    cases level with
    | zero => exact nomatch h
    | succ level => exact Nat.succ_pos level
  | cons step before ih =>
    cases step with
    | line _ => exact ih h
    | enter _ => exact ih h
    | deeper => exact ih h
    | leave _ =>
      cases level with
      | zero => exact nomatch h
      | succ level => exact ih h

theorem topLines_append {steps more : List Step} {level between : Nat}
    (h : reach? level steps = some between) :
    topLines level (steps ++ more) = topLines level steps ++ topLines between more := by
  induction steps generalizing level with
  | nil =>
    obtain rfl := Option.some.inj h
    simp [topLines]
  | cons step steps ih =>
    cases step with
    | line l =>
      cases level with
      | zero => exact congrArg (l :: ·) (ih h)
      | succ level => exact ih h
    | enter l =>
      cases level with
      | zero => exact congrArg (l :: ·) (ih h)
      | succ level => exact ih h
    | deeper => cases level <;> exact ih h
    | leave l =>
      match level with
      | 0 => exact nomatch h
      | 1 => exact congrArg (l :: ·) (ih h)
      | level + 2 => exact ih h

theorem topLines_eq_nil {steps : List Step} {level level' : Nat}
    (h : reach? level steps = some level') : topLines (level + 1) steps = [] := by
  induction steps generalizing level with
  | nil => rfl
  | cons step steps ih =>
    cases step with
    | line _ => exact ih h
    | enter _ => exact ih h
    | deeper => exact ih h
    | leave _ =>
      cases level with
      | zero => exact nomatch h
      | succ level => exact ih h

theorem balanced_nil : Balanced [] := fun _ => rfl

theorem Balanced.append {steps more : List Step} (h : Balanced steps) (h' : Balanced more) :
    Balanced (steps ++ more) :=
  fun level => (reach?_append (h level)).trans (h' level)

theorem Balanced.cons_line {steps : List Step} (h : Balanced steps) (l : Line) :
    Balanced (line l :: steps) := h

theorem Balanced.cons_gap {steps : List Step} (h : Balanced steps) : Balanced (gap :: steps) := h

theorem balanced_flatMap {α : Type} {items : List α} {f : α → List Step}
    (h : ∀ a ∈ items, Balanced (f a)) : Balanced (items.flatMap f) := by
  induction items with
  | nil => exact balanced_nil
  | cons a items ih =>
    obtain ⟨ha, hitems⟩ := List.forall_mem_cons.1 h
    exact ha.append (ih hitems)

theorem balanced_map_line {α : Type} (items : List α) (f : α → Line) :
    Balanced (items.map fun a => line (f a)) := by
  induction items with
  | nil => exact balanced_nil
  | cons a items ih => exact ih.cons_line _

theorem balanced_spaced {groups : List (List Step)} (h : ∀ group ∈ groups, Balanced group) :
    Balanced (spaced groups) := by
  induction groups with
  | nil => exact balanced_nil
  | cons group groups ih =>
    obtain ⟨hgroup, hgroups⟩ := List.forall_mem_cons.1 h
    cases groups with
    | nil => exact hgroup
    | cons next groups => exact (hgroup.append fun _ => rfl).append (ih hgroups)

theorem topLines_append_of_balanced {steps : List Step} (h : Balanced steps) (more : List Step) :
    topLines 0 (steps ++ more) = topLines 0 steps ++ topLines 0 more :=
  topLines_append (h 0)

theorem topLines_succ_append {steps : List Step} (h : Balanced steps) (level : Nat)
    (more : List Step) : topLines (level + 1) (steps ++ more) = topLines (level + 1) more := by
  rw [topLines_append (h (level + 1)), topLines_eq_nil (h level), List.nil_append]

theorem topLines_map_line {α : Type} (items : List α) (f : α → Line) :
    topLines 0 (items.map fun a => line (f a)) = items.map f := by
  induction items with
  | nil => rfl
  | cons a items ih => exact congrArg (f a :: ·) ih

end Step

open Step

/-! ## Generated code is balanced -/

theorem balanced_docs (doc : String) : Balanced (docs doc) :=
  balanced_map_line _ _

theorem balanced_variants (values : List String) : Balanced (variants values) :=
  balanced_flatMap fun _ _ _ => rfl

theorem balanced_enumType (decl : EnumDecl) : Balanced (enumType decl) := by
  intro level
  rw [enumType, List.append_assoc, List.append_assoc, reach?_append (balanced_docs _ level)]
  exact reach?_append (balanced_variants _ (level + 1))

theorem balanced_enumNames (decl : EnumDecl) : Balanced (enumNames decl) := by
  intro level
  rw [enumNames, List.append_assoc, List.append_assoc, List.append_assoc]
  exact (reach?_append (balanced_map_line _ _ (level + 3))).trans
    (reach?_append (balanced_map_line _ _ (level + 3)))

theorem balanced_enumCode (decl : EnumDecl) : Balanced (enumCode decl) := by
  have hdisplay : Balanced (enumDisplay decl) := fun _ => rfl
  rw [enumCode, List.append_assoc, List.append_assoc, List.append_assoc]
  exact (balanced_enumType decl).append
    ((balanced_enumNames decl).append hdisplay.cons_gap).cons_gap

theorem balanced_slot (field : FieldDecl) : Balanced (slot field) := by
  have hattribute : Balanced [slotAttribute field] := by
    intro level
    rw [slotAttribute]
    split <;> rfl
  exact (balanced_docs _).append (hattribute.append fun _ => rfl)

theorem balanced_record (decl : MessageDecl) : Balanced (record decl) := by
  intro level
  rw [record, List.append_assoc, List.append_assoc, reach?_append (balanced_docs _ level)]
  exact reach?_append (balanced_flatMap (fun field _ => balanced_slot field) (level + 1))

theorem balanced_methods (field : FieldDecl) : Balanced (methods field) := by
  intro level
  rw [methods]
  split <;> rfl

theorem balanced_spaced_methods (fields : List FieldDecl) :
    Balanced (spaced (fields.map methods)) :=
  balanced_spaced (List.forall_mem_map.2 fun field _ => balanced_methods field)

theorem balanced_recordMethods (decl : MessageDecl) : Balanced (recordMethods decl) := by
  intro level
  rw [recordMethods, List.append_assoc]
  exact reach?_append (balanced_spaced_methods _ (level + 1))

theorem balanced_fieldEntries (runtime : String) (fields : List FieldDecl) :
    Balanced (fieldEntries runtime fields) := by
  intro level
  rw [fieldEntries]
  split
  · rfl
  · rw [List.append_assoc]
    exact reach?_append (balanced_flatMap (fun _ _ _ => rfl) (level + 1))

theorem balanced_table (runtime : String) (decl : MessageDecl) :
    Balanced (table runtime decl) := by
  intro level
  rw [table, List.append_assoc]
  exact reach?_append (balanced_fieldEntries runtime decl.fields (level + 1))

theorem balanced_fillField (runtime : String) (field : FieldDecl) :
    Balanced (fillField runtime field) := by
  intro level
  rw [fillField]
  split <;> rfl

theorem balanced_routine (runtime : String) (decl : MessageDecl) :
    Balanced (routine runtime decl) := by
  have hfields : Balanced (spaced (decl.fields.map (fillField runtime))) :=
    balanced_spaced (List.forall_mem_map.2 fun field _ => balanced_fillField runtime field)
  intro level
  rw [routine, List.append_assoc]
  exact reach?_append (hfields (level + 1))

theorem balanced_overlay (runtime : String) (decl : MessageDecl) :
    Balanced (overlay runtime decl) := by
  intro level
  rw [overlay, List.append_assoc, List.append_assoc, List.append_assoc]
  exact (reach?_append (balanced_table runtime decl (level + 1))).trans
    (reach?_append (balanced_routine runtime decl (level + 1)))

theorem balanced_messageCode (runtime : String) (decl : MessageDecl) :
    Balanced (messageCode runtime decl) := by
  have hmethods : Balanced (if decl.fields.isEmpty then [] else .gap :: recordMethods decl) := by
    split
    · exact balanced_nil
    · exact (balanced_recordMethods decl).cons_gap
  exact ((balanced_record decl).append hmethods).append (balanced_overlay runtime decl).cons_gap

theorem balanced_moduleCode (schema : Schema) (options : Options) :
    Balanced (moduleCode schema options) := by
  have henums : Balanced (schema.enums.flatMap fun decl => .gap :: enumCode decl) :=
    balanced_flatMap fun decl _ => (balanced_enumCode decl).cons_gap
  have hmessages : Balanced
      (schema.messages.flatMap fun decl => .gap :: messageCode options.runtime decl) :=
    balanced_flatMap fun decl _ => (balanced_messageCode options.runtime decl).cons_gap
  exact (henums.append hmessages).cons_line _

end LayeredConfig.Code
