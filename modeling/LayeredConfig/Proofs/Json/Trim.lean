import LayeredConfig.Json.Basic
import LayeredConfig.Proofs.Assoc

/-!
# Trimmed documents

A document is a trimmed form of another if it came out of it by leaving out
items of arrays and members of objects, at any depth.  What is left keeps its
key and is itself trimmed; a scalar stays as it is.
-/

namespace LayeredConfig.Json

mutual

/-- The first document is a trimmed form of the second. -/
def Trims : Json → Json → Prop
  | array items, json => ∃ origs, json = array origs ∧ TrimsItems items origs
  | object members, json => ∃ origs, json = object origs ∧ TrimsMembers members origs
  | json, orig => orig = json

def TrimsItems : List Json → List Json → Prop
  | [], _ => True
  | item :: items, origs => (∃ orig ∈ origs, Trims item orig) ∧ TrimsItems items origs

def TrimsMembers : Members → Members → Prop
  | [], _ => True
  | (key, value) :: members, origs =>
    (∃ orig, (key, orig) ∈ origs ∧ Trims value orig) ∧ TrimsMembers members origs

end

theorem trimsItems_iff {items origs : List Json} :
    TrimsItems items origs ↔ ∀ item ∈ items, ∃ orig ∈ origs, Trims item orig := by
  induction items with
  | nil => simp [TrimsItems]
  | cons item items ih => simp [TrimsItems, ih]

theorem trimsMembers_iff {members origs : Members} :
    TrimsMembers members origs ↔
      ∀ m ∈ members, ∃ orig, (m.1, orig) ∈ origs ∧ Trims m.2 orig := by
  induction members with
  | nil => simp [TrimsMembers]
  | cons m members ih =>
    obtain ⟨key, value⟩ := m
    simp [TrimsMembers, ih]

/-- Induction over a document: an array from its items, an object from the
values of its members. -/
theorem induction {motive : Json → Prop} (null : motive null) (bool : ∀ b, motive (bool b))
    (number : ∀ n, motive (number n)) (string : ∀ s, motive (string s))
    (array : ∀ items, (∀ item ∈ items, motive item) → motive (array items))
    (object : ∀ members : Members, (∀ m ∈ members, motive m.2) → motive (object members)) :
    ∀ json, motive json
  | .null => null
  | .bool b => bool b
  | .number n => number n
  | .string s => string s
  | .array items => array items fun item h =>
    have := List.sizeOf_lt_of_mem h
    induction null bool number string array object item
  | .object members => object members fun ⟨key, value⟩ h =>
    have := List.sizeOf_lt_of_mem h
    induction null bool number string array object value
termination_by json => sizeOf json
decreasing_by
  · simp only [Json.array.sizeOf_spec]
    omega
  · simp only [Json.object.sizeOf_spec, Prod.mk.sizeOf_spec] at *
    omega

theorem Trims.refl (json : Json) : Trims json json := by
  induction json using Json.induction with
  | null | bool | number | string => rfl
  | array items ih => exact ⟨items, rfl, trimsItems_iff.2 fun item h => ⟨item, h, ih item h⟩⟩
  | object members ih =>
    exact ⟨members, rfl, trimsMembers_iff.2 fun m h => ⟨m.2, h, ih m h⟩⟩

theorem Trims.trans {json middle orig : Json} (h : Trims json middle) (h' : Trims middle orig) :
    Trims json orig := by
  induction json using Json.induction generalizing middle orig with
  | null | bool | number | string =>
    obtain rfl : middle = _ := h
    exact h'
  | array items ih =>
    obtain ⟨middles, rfl, h⟩ := h
    obtain ⟨origs, rfl, h'⟩ := h'
    refine ⟨origs, rfl, trimsItems_iff.2 fun item hitem => ?_⟩
    obtain ⟨middle, hmiddle, hm⟩ := trimsItems_iff.1 h item hitem
    obtain ⟨orig, horig, ho⟩ := trimsItems_iff.1 h' middle hmiddle
    exact ⟨orig, horig, ih item hitem hm ho⟩
  | object members ih =>
    obtain ⟨middles, rfl, h⟩ := h
    obtain ⟨origs, rfl, h'⟩ := h'
    refine ⟨origs, rfl, trimsMembers_iff.2 fun m hm => ?_⟩
    obtain ⟨middle, hmiddle, ht⟩ := trimsMembers_iff.1 h m hm
    obtain ⟨orig, horig, ho⟩ := trimsMembers_iff.1 h' _ hmiddle
    exact ⟨orig, horig, ih m hm ht ho⟩

theorem TrimsMembers.trans {members middles origs : Members} (h : TrimsMembers members middles)
    (h' : TrimsMembers middles origs) : TrimsMembers members origs := by
  have hobject : Trims (object members) (object origs) :=
    Trims.trans ⟨middles, rfl, h⟩ ⟨origs, rfl, h'⟩
  obtain ⟨_, heq, h⟩ := hobject
  obtain rfl := object.inj heq
  exact h

theorem trimsMembers_of_subset {members origs : Members} (h : ∀ m ∈ members, m ∈ origs) :
    TrimsMembers members origs :=
  trimsMembers_iff.2 fun m hm => ⟨m.2, h m hm, Trims.refl m.2⟩

theorem trimsItems_of_subset {items origs : List Json} (h : ∀ item ∈ items, item ∈ origs) :
    TrimsItems items origs :=
  trimsItems_iff.2 fun item hitem => ⟨item, h item hitem, Trims.refl item⟩

end LayeredConfig.Json
