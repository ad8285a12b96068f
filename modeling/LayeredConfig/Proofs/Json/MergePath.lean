import LayeredConfig.Json.Path
import LayeredConfig.Proofs.Json.Merge
import LayeredConfig.Proofs.Json.Ordered
import LayeredConfig.Proofs.Json.Trim

/-!
# Merged documents, path by path

What a merged document holds at a path of keys is what its two documents hold there,
merged (`at?_mergeValue`), unless the upper one has something else than an object
further up.  That replaces everything below it, and the path leads nowhere
(`Hides.at?_eq_none`).  Put together, this is the law of the deep merge
(`LaidOver`).
-/

namespace LayeredConfig.Json

def Path.ofKeys (keys : List String) : Path := keys.map .member

/-- On the way to the path, before its end, there is something that is no object. -/
def Hides (json : Json) (keys : List String) : Prop :=
  ∃ start key more value, keys = start ++ key :: more ∧
    json.at? (.ofKeys start) = some value ∧ ∀ members, value ≠ object members

/-- `merged` is `overlay` laid over `base`, at every path of keys. -/
structure LaidOver (base overlay merged : Json) : Prop where
  /-- What is no object stands in the place of whatever was there. -/
  replaces : ∀ keys value, (∀ members, value ≠ object members) →
    overlay.at? (.ofKeys keys) = some value → merged.at? (.ofKeys keys) = some value
  /-- What the overlay neither holds nor hides stays as it was. -/
  keeps : ∀ keys, overlay.at? (.ofKeys keys) = none → ¬ overlay.Hides keys →
    merged.at? (.ofKeys keys) = base.at? (.ofKeys keys)
  /-- Two objects at one path are merged. -/
  joins : ∀ keys upper lower, overlay.at? (.ofKeys keys) = some (object upper) →
    base.at? (.ofKeys keys) = some (object lower) →
    merged.at? (.ofKeys keys) = some (object (mergeMembers lower upper))
  /-- An object goes where there was none. -/
  adds : ∀ keys upper, overlay.at? (.ofKeys keys) = some (object upper) →
    (∀ lower, base.at? (.ofKeys keys) ≠ some (object lower)) →
    merged.at? (.ofKeys keys) = some (object upper)
  /-- There is nothing else. -/
  holds_iff : ∀ keys, (merged.at? (.ofKeys keys)).isSome ↔
    (overlay.at? (.ofKeys keys)).isSome ∨
      (base.at? (.ofKeys keys)).isSome ∧ ¬ overlay.Hides keys

/-! ## Paths of keys -/

theorem at?_ofKeys_cons (json : Json) (key : String) (keys : List String) :
    json.at? (.ofKeys (key :: keys)) = (json.get? key).bind fun value => value.at? (.ofKeys keys) :=
  rfl

theorem at?_ofKeys_append (json : Json) (keys more : List String) :
    json.at? (.ofKeys (keys ++ more)) =
      (json.at? (.ofKeys keys)).bind fun value => value.at? (.ofKeys more) := by
  induction keys generalizing json with
  | nil => rfl
  | cons key keys ih => simp only [List.cons_append, at?_ofKeys_cons, ih, Option.bind_assoc]

theorem get?_eq_none_of_ne_object {json : Json} (h : ∀ members, json ≠ object members)
    (key : String) : json.get? key = none := by
  cases json with
  | object members => exact absurd rfl (h members)
  | null | bool | number | string | array => rfl

theorem hides_cons_of_ne_object {json : Json} (h : ∀ members, json ≠ object members)
    (key : String) (keys : List String) : json.Hides (key :: keys) :=
  ⟨[], key, keys, json, rfl, rfl, h⟩

theorem Hides.cons {json value : Json} {key : String} {keys : List String}
    (hget : json.get? key = some value) (h : value.Hides keys) : json.Hides (key :: keys) := by
  obtain ⟨start, next, more, found, rfl, hfound, hobject⟩ := h
  refine ⟨key :: start, next, more, found, rfl, ?_, hobject⟩
  rw [at?_ofKeys_cons, hget]
  exact hfound

theorem Hides.at?_eq_none {json : Json} {keys : List String} (h : json.Hides keys) :
    json.at? (.ofKeys keys) = none := by
  obtain ⟨start, key, more, value, rfl, hvalue, hobject⟩ := h
  rw [at?_ofKeys_append, hvalue, Option.bind_some, at?_ofKeys_cons,
    get?_eq_none_of_ne_object hobject]
  rfl

/-! ## Paths into merged documents -/

theorem get?_mergeValue {overlay : Members} (h : Assoc.Sorted overlay) (base : Json)
    (key : String) :
    (mergeValue base (object overlay)).get? key =
      over? (base.get? key) (Assoc.find? key overlay) := by
  cases base with
  | object members =>
    rw [mergeValue]
    exact find?_mergeMembers h.nodup_keys members key
  | null | bool | number | string | array =>
    rw [mergeValue]
    · exact (over?_none_left _).symm
    · simp

/-- At a path that the upper document does not hide, the merged one holds what the two
hold, merged. -/
theorem at?_mergeValue {overlay : Json} (h : overlay.Ordered) (base : Json) {keys : List String}
    (hopen : ¬ overlay.Hides keys) :
    (mergeValue base overlay).at? (.ofKeys keys) =
      over? (base.at? (.ofKeys keys)) (overlay.at? (.ofKeys keys)) := by
  induction keys generalizing base overlay with
  | nil => rfl
  | cons key keys ih =>
    cases overlay with
    | null | bool | number | string | array =>
      refine absurd (hides_cons_of_ne_object ?_ key keys) hopen
      simp
    | object upper =>
      obtain ⟨hsorted, hvalues⟩ := ordered_object_iff.1 h
      rw [at?_ofKeys_cons, at?_ofKeys_cons, at?_ofKeys_cons, get?_mergeValue hsorted, get?]
      cases hfind : Assoc.find? key upper with
      | none => rfl
      | some value =>
        cases base.get? key with
        | none => exact (over?_none_left _).symm
        | some below =>
          have hvalue : value.Ordered := hvalues _ (Assoc.mem_of_find?_eq_some hfind)
          exact ih hvalue below fun hhides => hopen (hhides.cons hfind)

theorem Hides.mergeValue {overlay : Json} (hordered : overlay.Ordered) (base : Json)
    {keys : List String} (h : overlay.Hides keys) : (mergeValue base overlay).Hides keys := by
  obtain ⟨start, key, more, value, rfl, hvalue, hobject⟩ := h
  have hopen : ¬ overlay.Hides start := by
    intro hhides
    rw [hhides.at?_eq_none] at hvalue
    exact nomatch hvalue
  refine ⟨start, key, more, value, rfl, ?_, hobject⟩
  rw [at?_mergeValue hordered base hopen, hvalue, over?_some_of_ne_object hobject]

theorem not_hides_of_at?_eq_some {json value : Json} {keys : List String}
    (h : json.at? (.ofKeys keys) = some value) : ¬ json.Hides keys := by
  intro hhides
  rw [hhides.at?_eq_none] at h
  exact nomatch h

theorem laidOver_mergeValue {overlay : Json} (h : overlay.Ordered) (base : Json) :
    LaidOver base overlay (mergeValue base overlay) where
  replaces keys value hobject hvalue := by
    rw [at?_mergeValue h base (not_hides_of_at?_eq_some hvalue), hvalue,
      over?_some_of_ne_object hobject]
  keeps keys hnone hopen := by
    rw [at?_mergeValue h base hopen, hnone]
    rfl
  joins keys upper lower hupper hlower := by
    rw [at?_mergeValue h base (not_hides_of_at?_eq_some hupper), hupper, hlower, over?,
      mergeValue]
  adds keys upper hupper hlower := by
    rw [at?_mergeValue h base (not_hides_of_at?_eq_some hupper), hupper]
    cases hbase : base.at? (.ofKeys keys) with
    | none => rfl
    | some below =>
      cases below with
      | object lower => exact absurd hbase (hlower lower)
      | null | bool | number | string | array => rfl
  holds_iff keys := by
    by_cases hhides : overlay.Hides keys
    · simp [(hhides.mergeValue h base).at?_eq_none, hhides.at?_eq_none, hhides]
    · rw [at?_mergeValue h base hhides]
      cases overlay.at? (.ofKeys keys) with
      | none => simp [over?, hhides]
      | some value => cases base.at? (.ofKeys keys) <;> simp [over?]

/-! ## The merged object as a whole -/

theorem ordered_mergeValue {overlay : Json} (h : overlay.Ordered) {base : Json}
    (hbase : base.Ordered) : (mergeValue base overlay).Ordered := by
  induction overlay using Json.induction generalizing base with
  | null | bool | number | string | array items =>
    rw [mergeValue_of_ne_object]
    · exact h
    · simp
  | object upper ih =>
    cases base with
    | null | bool | number | string | array => exact h
    | object lower =>
      obtain ⟨hupper, huppers⟩ := ordered_object_iff.1 h
      obtain ⟨hlower, hlowers⟩ := ordered_object_iff.1 hbase
      have hmerged : Assoc.Sorted (mergeMembers lower upper) := sorted_mergeMembers hlower
      rw [mergeValue]
      refine ordered_object_iff.2 ⟨hmerged, fun m hm => ?_⟩
      -- each member of the merged object comes from a member of one of the two, or of both
      have hfind := (Assoc.find?_eq_some_iff hmerged.nodup_keys).2 hm
      rw [find?_mergeMembers hupper.nodup_keys] at hfind
      cases habove : Assoc.find? m.1 upper with
      | none =>
        rw [habove] at hfind
        exact hlowers _ (Assoc.mem_of_find?_eq_some hfind)
      | some value =>
        have hmem := Assoc.mem_of_find?_eq_some habove
        cases hbelow : Assoc.find? m.1 lower with
        | none =>
          rw [habove, hbelow] at hfind
          exact Option.some.inj hfind ▸ huppers _ hmem
        | some below =>
          rw [habove, hbelow] at hfind
          have hordered := ih _ hmem (huppers _ hmem)
            (hlowers _ (Assoc.mem_of_find?_eq_some hbelow))
          exact Option.some.inj hfind ▸ hordered

theorem mergeMembers_nil_left {overlay : Members} (h : Assoc.Sorted overlay) :
    mergeMembers [] overlay = overlay := by
  refine (sorted_mergeMembers Assoc.sorted_nil).eq_of_find?_eq h fun key => ?_
  rw [find?_mergeMembers h.nodup_keys]
  exact over?_none_left _

theorem mergeValue_self {json : Json} (h : json.Ordered) : mergeValue json json = json := by
  induction json using Json.induction with
  | null | bool | number | string | array items =>
    refine mergeValue_of_ne_object ?_ _
    simp
  | object members ih =>
    obtain ⟨hsorted, hvalues⟩ := ordered_object_iff.1 h
    rw [mergeValue]
    congr 1
    refine (sorted_mergeMembers hsorted).eq_of_find?_eq hsorted fun key => ?_
    rw [find?_mergeMembers hsorted.nodup_keys]
    cases hfind : Assoc.find? key members with
    | none => rfl
    | some value =>
      have hmem := Assoc.mem_of_find?_eq_some hfind
      exact congrArg some (ih _ hmem (hvalues _ hmem))

/-- The law of the deep merge.  At every path of keys the merged object holds what the
upper object holds there, and otherwise, unless that hides the path, what the lower one
holds; objects are merged with objects, and nothing else comes in.  An empty object
changes nothing on either side, and neither does the object itself. -/
theorem mergeMembers_laidOver {base overlay : Members} (hbase : (object base).Ordered)
    (hoverlay : (object overlay).Ordered) :
    (object (mergeMembers base overlay)).Ordered ∧
    LaidOver (object base) (object overlay) (object (mergeMembers base overlay)) ∧
    mergeMembers base [] = base ∧
    mergeMembers [] overlay = overlay ∧
    mergeMembers base base = base := by
  have hmerge : mergeValue (object base) (object overlay) = object (mergeMembers base overlay) := by
    rw [mergeValue]
  have hself := mergeValue_self hbase
  rw [mergeValue] at hself
  refine ⟨?_, ?_, by rw [mergeMembers], ?_, object.inj hself⟩
  · exact hmerge ▸ ordered_mergeValue hoverlay hbase
  · exact hmerge ▸ laidOver_mergeValue hoverlay (object base)
  · exact mergeMembers_nil_left (ordered_object_iff.1 hoverlay).1

def lowerLayer : Members :=
  [("body", .object [("limit", .number (.int 1)), ("on", .bool true)]), ("name", .string "a"),
    ("tags", .array [.null])]

/-- An object that has something to say about each of them. -/
def upperLayer : Members :=
  [("body", .object [("limit", .object [("soft", .null)])]), ("name", .object []),
    ("tags", .array [])]

/-- Objects meet objects and other values, in either order. -/
theorem mergeMembers_laidOver_layers :
    (object lowerLayer).Ordered ∧ (object upperLayer).Ordered ∧
      LaidOver (object lowerLayer) (object upperLayer) (object
        [("body", .object [("limit", .object [("soft", .null)]), ("on", .bool true)]),
          ("name", .object []), ("tags", .array [])]) ∧
      mergeMembers lowerLayer lowerLayer = lowerLayer := by
  have hlower : (object lowerLayer).Ordered := by decide
  have hupper : (object upperLayer).Ordered := by decide
  obtain ⟨-, hlaid, -, -, hself⟩ := mergeMembers_laidOver hlower hupper
  exact ⟨hlower, hupper, hlaid, hself⟩

end LayeredConfig.Json
