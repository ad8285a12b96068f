import LayeredConfig.Proofs.Message.RoundTrip

/-!
# Messages whose trees are all addressed

A message is addressable if no field of it, or of a message nested in it, has
its name among the keys of a field before it.  Then every tree is addressed.
The converse holds because there is a tree that sets everything (`Tree.full`).
-/

namespace LayeredConfig

namespace Fields

/-- No field has its name among the keys of a field before it, at any depth. -/
def Addressable : Fields → Prop
  | nil => True
  | plain field _ rest => (∀ name ∈ rest.names, name ∉ field.keys) ∧ rest.Addressable
  | nested field _ sub rest | nestedList field _ sub rest =>
    (∀ name ∈ rest.names, name ∉ field.keys) ∧ sub.Addressable ∧ rest.Addressable

instance instDecidableAddressable : (fields : Fields) → Decidable fields.Addressable
  | nil => isTrue trivial
  | plain field _ rest =>
    have := instDecidableAddressable rest
    inferInstanceAs (Decidable ((∀ name ∈ rest.names, name ∉ field.keys) ∧ rest.Addressable))
  | nested field _ sub rest | nestedList field _ sub rest =>
    have := instDecidableAddressable sub
    have := instDecidableAddressable rest
    inferInstanceAs (Decidable
      ((∀ name ∈ rest.names, name ∉ field.keys) ∧ sub.Addressable ∧ rest.Addressable))

end Fields

namespace Kind

def sample : (kind : Kind) → kind.Slot
  | leaf type => some type.zero
  | list type => [type.zero]
  | map key value => SortedMap.empty.insert key.zero value.zero

theorem sample_ne_unset (kind : Kind) : kind.sample ≠ kind.unset := by
  cases kind with
  | leaf type => exact Option.some_ne_none _
  | list type => exact List.cons_ne_nil _ _
  | map key value =>
    intro h
    have hfind := congrArg (SortedMap.find? · key.zero) h
    simp [sample, unset] at hfind

end Kind

namespace Tree

def full : (fields : Fields) → Tree fields
  | .nil => ()
  | .plain _ kind rest => (kind.sample, full rest)
  | .nested _ _ sub rest => (some (full sub), full rest)
  | .nestedList _ _ sub rest => ([full sub], full rest)

variable {fields : Fields}

theorem keys_memberOf_append {field : Label} {json : Option Json} (h : json ≠ none)
    (members : Json.Members) :
    Assoc.keys (memberOf field json ++ members) = field.name :: Assoc.keys members := by
  obtain ⟨json, rfl⟩ := Option.ne_none_iff_exists'.1 h
  rfl

theorem keys_sortedMembers_full (fields : Fields) :
    Assoc.keys (sortedMembers fields (full fields)) = fields.names := by
  induction fields with
  | nil => rfl
  | plain field kind rest ih =>
    have hset := sort_toJson?_eq_none_iff.not.2 kind.sample_ne_unset
    refine (congrArg _ (sortedMembers_plain field kind _ _)).trans ?_
    rw [keys_memberOf_append hset, ih]
    rfl
  | nested field message sub rest _ ih =>
    have hset : nestedDoc (some (full sub)) ≠ none := nofun
    refine (congrArg _ (sortedMembers_nested field message _ _)).trans ?_
    rw [keys_memberOf_append hset, ih]
    rfl
  | nestedList field message sub rest _ ih =>
    have hset : nestedListDoc [full sub] ≠ none := nofun
    refine (congrArg _ (sortedMembers_nestedList field message _ _)).trans ?_
    rw [keys_memberOf_append hset, ih]
    rfl

theorem addressed_of_addressable (h : fields.Addressable) (tree : Tree fields) :
    Addressed fields tree := by
  induction fields with
  | nil => trivial
  | plain field kind rest ih =>
    exact ⟨fun key hkey => h.1 key (mem_names_of_mem_keys hkey), ih h.2 tree.2⟩
  | nested field message sub rest ihsub ih | nestedList field message sub rest ihsub ih =>
    exact ⟨fun key hkey => h.1 key (mem_names_of_mem_keys hkey), fun t _ => ihsub h.2.1 t,
      ih h.2.2 tree.2⟩

theorem addressable_of_addressed_full (h : Addressed fields (full fields)) :
    fields.Addressable := by
  induction fields with
  | nil => trivial
  | plain field kind rest ih =>
    obtain ⟨hlead, hrest⟩ := h
    rw [keys_sortedMembers_full] at hlead
    exact ⟨hlead, ih hrest⟩
  | nested field message sub rest ihsub ih =>
    obtain ⟨hlead, hsub, hrest⟩ := h
    rw [keys_sortedMembers_full] at hlead
    exact ⟨hlead, ihsub (hsub _ rfl), ih hrest⟩
  | nestedList field message sub rest ihsub ih =>
    obtain ⟨hlead, hsub, hrest⟩ := h
    rw [keys_sortedMembers_full] at hlead
    exact ⟨hlead, ihsub (hsub _ List.mem_cons_self), ih hrest⟩

end Tree

end LayeredConfig
