import LayeredConfig.Proofs.Json.Ordered
import LayeredConfig.Yaml.Document

/-!
# YAML documents are ordered

A scalar has no parts, and the entries of a mapping are added one by one, each at
its place.
-/

namespace LayeredConfig.Yaml

theorem FloatValue.ordered_json (x : FloatValue) : x.json.Ordered := by
  cases x <;> trivial

theorem ordered_of_plainValue? {cs : List Char} {json : Json} (h : plainValue? cs = some json) :
    json.Ordered := by
  unfold plainValue? at h
  split at h
  · obtain rfl := Option.some.inj h
    trivial
  · split at h
    · obtain rfl := Option.some.inj h
      trivial
    · obtain rfl := Option.some.inj h
      trivial
    · exact nomatch h
    · split at h
      · obtain rfl := Option.some.inj h
        exact FloatValue.ordered_json _
      · obtain rfl := Option.some.inj h
        trivial

theorem ordered_of_scalarValue? {tag : Option (List UInt8)} {text : List Char} {plain : Bool}
    {json : Json} (h : scalarValue? tag text plain = some json) : json.Ordered := by
  unfold scalarValue? at h
  dsimp only at h
  split at h
  · split at h
    · exact ordered_of_plainValue? h
    · obtain rfl := Option.some.inj h
      trivial
  · split at h
    · exact nomatch h
    · split at h
      · obtain ⟨b, -, rfl⟩ := Option.map_eq_some_iff.1 h
        trivial
      · split at h
        · split at h
          · obtain rfl := Option.some.inj h
            trivial
          · exact nomatch h
        · split at h
          · obtain ⟨x, -, rfl⟩ := Option.map_eq_some_iff.1 h
            exact x.ordered_json
          · split at h
            · split at h
              · obtain rfl := Option.some.inj h
                trivial
              · exact nomatch h
            · split at h
              · exact ordered_of_plainValue? h
              · obtain rfl := Option.some.inj h
                trivial

theorem foldlM_induction {α β : Type} {P : β → Prop} {f : β → α → Option β}
    (hf : ∀ b a b', P b → f b a = some b' → P b') {l : List α} {b b' : β} (hb : P b)
    (h : l.foldlM f b = some b') : P b' := by
  induction l generalizing b with
  | nil => exact Option.some.inj h ▸ hb
  | cons a l ih =>
    obtain ⟨c, hc, h⟩ := Option.bind_eq_some_iff.1 (List.foldlM_cons.symm.trans h)
    exact ih (hf b a c hb hc) h

theorem Slots.ordered_of_items {slots : Slots} {depth followed count : Nat}
    (hvalue : ∀ {node followed json more},
      slots.value? depth node followed = some (json, more) → json.Ordered)
    {items : List Node} {values : List Json}
    (h : items.foldlM (fun (acc, followed) item => do
      let (v, followed) ← value? slots depth item followed
      some (v :: acc, followed)) ([], followed) = some (values, count)) :
    (Json.array values.reverse).Ordered := by
  have hkept : ∀ value ∈ values, value.Ordered := by
    refine foldlM_induction (P := fun acc => ∀ value ∈ acc.1, value.Ordered) ?_ nofun h
    rintro ⟨acc, count⟩ item next hacc hnext
    obtain ⟨⟨value, count'⟩, hitem, hnext⟩ := Option.bind_eq_some_iff.1 hnext
    obtain rfl := Option.some.inj hnext
    exact List.forall_mem_cons.2 ⟨hvalue hitem, hacc⟩
  exact Json.ordered_array_iff.2 fun value hmem => hkept value (List.mem_reverse.1 hmem)

theorem Slots.ordered_of_entries {slots : Slots} {depth followed count : Nat}
    (hvalue : ∀ {node followed json more},
      slots.value? depth node followed = some (json, more) → json.Ordered)
    {entries : List (Node × Node)} {members : Json.Members}
    (h : entries.foldlM (fun (acc, followed) (key, item) => do
      let (k, followed) ← slots.key? key followed
      let (v, followed) ← value? slots depth item followed
      some (Assoc.insert k v acc, followed)) ([], followed) = some (members, count)) :
    (Json.object members).Ordered := by
  refine foldlM_induction (P := fun acc => (Json.object acc.1).Ordered) ?_
    Json.ordered_object_nil h
  rintro ⟨acc, count⟩ ⟨key, item⟩ next hacc hnext
  obtain ⟨⟨k, count'⟩, -, hnext⟩ := Option.bind_eq_some_iff.1 hnext
  obtain ⟨⟨value, count''⟩, hitem, hnext⟩ := Option.bind_eq_some_iff.1 hnext
  obtain rfl := Option.some.inj hnext
  exact Json.ordered_insert hacc k (hvalue hitem)

theorem Slots.ordered_of_value? {slots : Slots} {depth followed more : Nat} {node : Node}
    {json : Json} (h : slots.value? depth node followed = some (json, more)) : json.Ordered := by
  induction depth generalizing node followed json more with
  | zero =>
    rw [value?] at h
    split at h
    · obtain ⟨value, hvalue, h⟩ := Option.bind_eq_some_iff.1 h
      obtain ⟨rfl, -⟩ := Prod.mk.inj (Option.some.inj h)
      exact ordered_of_scalarValue? hvalue
    · exact nomatch h
    · exact nomatch h
    · exact nomatch h
  | succ depth ih =>
    rw [value?] at h
    split at h
    · obtain ⟨value, hvalue, h⟩ := Option.bind_eq_some_iff.1 h
      obtain ⟨rfl, -⟩ := Prod.mk.inj (Option.some.inj h)
      exact ordered_of_scalarValue? hvalue
    · dsimp only at h
      split at h
      · exact nomatch h
      · obtain ⟨⟨values, count⟩, hvalues, h⟩ := Option.bind_eq_some_iff.1 h
        obtain ⟨rfl, -⟩ := Prod.mk.inj (Option.some.inj h)
        exact ordered_of_items ih hvalues
    · dsimp only at h
      split at h
      · exact nomatch h
      · obtain ⟨⟨members, count⟩, hmembers, h⟩ := Option.bind_eq_some_iff.1 h
        obtain ⟨rfl, -⟩ := Prod.mk.inj (Option.some.inj h)
        exact ordered_of_entries ih hmembers
    · exact nomatch h

theorem ordered_of_parse? {text : String} {json : Json} (h : parse? text = some json) :
    json.Ordered := by
  unfold parse? at h
  obtain ⟨tokens, -, h⟩ := Option.bind_eq_some_iff.1 h
  obtain ⟨node, -, h⟩ := Option.bind_eq_some_iff.1 h
  cases node with
  | none =>
    obtain rfl := Option.some.inj h
    trivial
  | some node =>
    obtain ⟨⟨value, followed⟩, hvalue, h⟩ := Option.bind_eq_some_iff.1 h
    obtain rfl := Option.some.inj h
    exact Slots.ordered_of_value? hvalue

end LayeredConfig.Yaml
