import LayeredConfig.Proofs.Message.Readable
import LayeredConfig.Proofs.Message.Report
import LayeredConfig.Proofs.Message.Unknown
import Mathlib.Algebra.GroupWithZero.Nat

/-!
# The spelling of keys

`Fields.Respells` relates two objects that differ only in the keys under which they hold
some fields, at any depth: every field has the same members in both, or one member in
each, under any of its keys and with related values.  Cleaning respects the relation, and
removes as much from the one as from the other (`Fields.respells_clean`); what is gathered
is the same, and as many members are unknown.
-/

namespace LayeredConfig

namespace Json

/-- The same document, or objects that are related. -/
def AlikeObjects (R : Members → Members → Prop) (json json' : Json) : Prop :=
  json = json' ∨ ∃ members members', json = .object members ∧ json' = .object members' ∧
    R members members'

def AlikeArrays (R : Json → Json → Prop) (json json' : Json) : Prop :=
  json = json' ∨ ∃ items items', json = .array items ∧ json' = .array items' ∧
    List.Forall₂ R items items'

end Json

/-- The members of a field in two objects: the same ones, or one in each, whose values are
related. -/
def Label.Pairs (field : Label) (R : Json → Json → Prop) (members members' : Json.Members) :
    Prop :=
  field.own members = field.own members' ∨ ∃ key json key' json',
    field.own members = [(key, json)] ∧ field.own members' = [(key', json')] ∧ R json json'

/-- Two objects that differ only in the spelling of keys that belong to fields. -/
def Fields.Respells : Fields → Json.Members → Json.Members → Prop
  | nil, members, members' => members = members'
  | plain field _ rest, members, members' =>
    field.Pairs Eq members members' ∧ rest.Respells (field.others members) (field.others members')
  | nested field _ sub rest, members, members' =>
    field.Pairs (Json.AlikeObjects sub.Respells) members members' ∧
      rest.Respells (field.others members) (field.others members')
  | nestedList field _ sub rest, members, members' =>
    field.Pairs (Json.AlikeArrays (Json.AlikeObjects sub.Respells)) members members' ∧
      rest.Respells (field.others members) (field.others members')

/-- Two values of a field that differ only in the spelling of keys. -/
def Content.Respells : Content → Json → Json → Prop
  | plain _ => Eq
  | nested message => Json.AlikeObjects message.fields.Respells
  | nestedList message => Json.AlikeArrays (Json.AlikeObjects message.fields.Respells)

theorem Label.ordered_of_own_eq_singleton {field : Label} {members : Json.Members} {key : String}
    {json : Json} (hordered : (Json.object members).Ordered)
    (hown : field.own members = [(key, json)]) : json.Ordered := by
  have hmem : (key, json) ∈ field.own members := hown ▸ List.mem_singleton_self (key, json)
  exact (Json.ordered_object_iff.1 hordered).2 _ (mem_own_iff.1 hmem).1

theorem Content.Respells.refl (content : Content) (json : Json) : content.Respells json json := by
  cases content with
  | plain kind => rfl
  | nested message | nestedList message => exact Or.inl rfl

theorem Content.Respells.isNull_eq {content : Content} {json json' : Json}
    (h : content.Respells json json') : json.isNull = json'.isNull := by
  cases content with
  | plain kind => exact congrArg Json.isNull h
  | nested message | nestedList message =>
    rcases h with rfl | ⟨_, _, rfl, rfl, -⟩
    · rfl
    · rfl

/-! ## Lists related item by item -/

section Forall₂

variable {α β γ δ : Type} {R : α → β → Prop} {l : List α} {l' : List β}

theorem forall₂_mem (h : List.Forall₂ R l l') :
    List.Forall₂ (fun a b => a ∈ l ∧ b ∈ l' ∧ R a b) l l' := by
  induction h with
  | nil => exact .nil
  | cons hab _ ih =>
    refine .cons ⟨List.mem_cons_self, List.mem_cons_self, hab⟩ (ih.imp fun a b hmem => ?_)
    exact ⟨List.mem_cons_of_mem _ hmem.1, List.mem_cons_of_mem _ hmem.2.1, hmem.2.2⟩

theorem forall_mem_iff_of_forall₂ {P : α → Prop} {Q : β → Prop} (h : List.Forall₂ R l l')
    (hPQ : ∀ a b, R a b → (P a ↔ Q b)) : (∀ a ∈ l, P a) ↔ ∀ b ∈ l', Q b := by
  induction h with
  | nil => exact iff_of_true nofun nofun
  | cons hab _ ih => rw [List.forall_mem_cons, List.forall_mem_cons, hPQ _ _ hab, ih]

theorem forall₂_filterMap {S : γ → δ → Prop} {f : α → Option γ} {g : β → Option δ}
    (h : List.Forall₂ R l l') (hfg : ∀ a b, R a b → Option.Rel S (f a) (g b)) :
    List.Forall₂ S (l.filterMap f) (l'.filterMap g) := by
  induction h with
  | nil => exact .nil
  | @cons a b l l' hab _ ih =>
    have hrel := hfg a b hab
    rw [List.filterMap_cons, List.filterMap_cons]
    generalize f a = c at hrel ⊢
    generalize g b = d at hrel ⊢
    cases hrel with
    | none => exact ih
    | some hcd => exact .cons hcd ih

end Forall₂

namespace Fields

variable {fields : Fields} {members members' : Json.Members}

theorem respells_cons_iff {field : Field} {rest : Fields} :
    (cons field rest).Respells members members' ↔
      field.label.Pairs field.content.Respells members members' ∧
        rest.Respells (field.label.others members) (field.label.others members') := by
  obtain ⟨label, content⟩ := field
  cases content <;> exact Iff.rfl

theorem forall₂_own {field : Field}
    (h : field.label.Pairs field.content.Respells members members') :
    List.Forall₂ (fun m m' => field.content.Respells m.2 m'.2) (field.label.own members)
      (field.label.own members') := by
  rcases h with h | ⟨key, json, key', json', hown, hown', hvalue⟩
  · rw [h]
    exact List.forall₂_same.2 fun m _ => Content.Respells.refl _ _
  · rw [hown, hown']
    exact .cons hvalue .nil

/-! ## Counting -/

/-- A number for each member: one that its field makes of the value, or `other` where the
member belongs to no field. -/
def weight (fields : Fields) (size : Content → Json → Nat) (other : Nat) (m : String × Json) :
    Nat :=
  match fields.byKey? m.1 with
  | some field => size field.content m.2
  | none => other

theorem sum_weight_cons (field : Field) (rest : Fields) (size : Content → Json → Nat)
    (other : Nat) (members : Json.Members) :
    (members.map ((cons field rest).weight size other)).sum =
      ((field.label.own members).map fun m => size field.content m.2).sum +
        ((field.label.others members).map (rest.weight size other)).sum := by
  have hperm := (field.label.own_append_others_perm members).map
    ((cons field rest).weight size other)
  rw [← hperm.sum_nat, List.map_append, List.sum_append]
  refine congrArg₂ (fun a b : List Nat => a.sum + b.sum) (List.map_congr_left fun m hm => ?_)
    (List.map_congr_left fun m hm => ?_)
  · rw [weight, byKey?_cons, if_pos (Label.mem_own_iff.1 hm).2]
  · rw [weight, weight, byKey?_cons, if_neg (Label.mem_others_iff.1 hm).2]

/-- Spelling does not matter to a sum over members. -/
theorem Respells.sum_weight_eq (h : fields.Respells members members')
    (hordered : (Json.object members).Ordered) (hordered' : (Json.object members').Ordered)
    {size : Content → Json → Nat} {other : Nat}
    (hsize : ∀ field ∈ fields.toList, ∀ json json', json.Ordered → json'.Ordered →
      field.content.Respells json json' → size field.content json = size field.content json') :
    (members.map (fields.weight size other)).sum =
      (members'.map (fields.weight size other)).sum := by
  induction fields using cons_induction generalizing members members' with
  | nil =>
    obtain rfl : members = members' := h
    rfl
  | cons field rest _ ih =>
    obtain ⟨hpairs, hrest⟩ := respells_cons_iff.1 h
    obtain ⟨-, hvalues⟩ := Json.ordered_object_iff.1 hordered
    obtain ⟨-, hvalues'⟩ := Json.ordered_object_iff.1 hordered'
    rw [toList_cons, List.forall_mem_cons] at hsize
    obtain ⟨hfield, hsize⟩ := hsize
    have hown : ((field.label.own members).map fun m => size field.content m.2) =
        (field.label.own members').map fun m => size field.content m.2 := by
      refine map_eq_map_of_forall₂ ?_ (forall₂_mem (forall₂_own hpairs))
      rintro m m' ⟨hm, hm', hvalue⟩
      exact hfield m.2 m'.2 (hvalues m (Label.mem_own_iff.1 hm).1)
        (hvalues' m' (Label.mem_own_iff.1 hm').1) hvalue
    rw [sum_weight_cons, sum_weight_cons, hown, ih hrest (Label.ordered_others hordered)
      (Label.ordered_others hordered') hsize]

end Fields

theorem length_flatMap_zipIdx {α β : Type} (f : Json → List α) (g : Nat → α → β)
    (items : List Json) :
    (items.zipIdx.flatMap fun e => (f e.1).map (g e.2)).length =
      (items.map fun item => (f item).length).sum := by
  rw [List.length_flatMap, ← List.zipIdx_map_fst 0 items, List.map_map]
  simp [Function.comp_def]

/-! ## Unknown members -/

namespace Content

theorem length_unknown_of {content : Content} {json json' : Json}
    (h : ∀ message ∈ content.message?, ∀ members members', (Json.object members).Ordered →
      (Json.object members').Ordered → message.fields.Respells members members' →
        (message.fields.unknowns.tree (.object members)).length =
          (message.fields.unknowns.tree (.object members')).length)
    (hordered : json.Ordered) (hordered' : json'.Ordered)
    (hrespells : content.Respells json json') :
    (content.unknown json).length = (content.unknown json').length := by
  cases content with
  | plain kind => rfl
  | nested message =>
    rcases hrespells with rfl | ⟨members, members', rfl, rfl, hmembers⟩
    · rfl
    · exact h message rfl members members' hordered hordered' hmembers
  | nestedList message =>
    rcases hrespells with rfl | ⟨items, items', rfl, rfl, hitems⟩
    · rfl
    · have hlength := fun items => length_flatMap_zipIdx message.fields.unknowns.tree
        (fun i path => .item i :: path) items
      refine (hlength items).trans (Eq.trans (congrArg List.sum ?_) (hlength items').symm)
      refine map_eq_map_of_forall₂ ?_ (forall₂_mem hitems)
      rintro item item' ⟨hitem, hitem', rfl | ⟨members, members', rfl, rfl, hmembers⟩⟩
      · rfl
      · exact h message rfl members members' (Json.ordered_array_iff.1 hordered _ hitem)
          (Json.ordered_array_iff.1 hordered' _ hitem') hmembers

end Content

theorem Fields.length_unknowns_of {fields : Fields} {members members' : Json.Members}
    (h : ∀ field ∈ fields.toList, ∀ json json', json.Ordered → json'.Ordered →
      field.content.Respells json json' →
        (field.content.unknown json).length = (field.content.unknown json').length)
    (hordered : (Json.object members).Ordered) (hordered' : (Json.object members').Ordered)
    (hrespells : fields.Respells members members') :
    (fields.unknowns.tree (.object members)).length =
      (fields.unknowns.tree (.object members')).length := by
  have hlength : ∀ members, (fields.unknowns.tree (.object members)).length =
      (members.map (fields.weight (fun content json => (content.unknown json).length) 1)).sum := by
    intro members
    rw [unknowns_tree_object, List.length_flatMap]
    refine congrArg List.sum (List.map_congr_left fun m _ => ?_)
    rw [List.length_map, unknownIn, weight]
    cases fields.byKey? m.1 <;> rfl
  rw [hlength, hlength, hrespells.sum_weight_eq hordered hordered' h]

theorem Content.length_unknown_eq {content : Content} {json json' : Json}
    (hordered : json.Ordered) (hordered' : json'.Ordered)
    (hrespells : content.Respells json json') :
    (content.unknown json).length = (content.unknown json').length := by
  induction content using Content.induction generalizing json json' with
  | step content ih =>
    refine length_unknown_of (fun message hmessage members members' hm hm' h => ?_) hordered
      hordered' hrespells
    exact Fields.length_unknowns_of (fun field hfield json json' hj hj' h =>
      ih message hmessage field hfield hj hj' h) hm hm' h

theorem Fields.length_unknowns_eq {fields : Fields} {members members' : Json.Members}
    (hordered : (Json.object members).Ordered) (hordered' : (Json.object members').Ordered)
    (hrespells : fields.Respells members members') :
    (fields.unknowns.tree (.object members)).length =
      (fields.unknowns.tree (.object members')).length :=
  length_unknowns_of (fun _ _ _ _ => Content.length_unknown_eq) hordered hordered' hrespells

/-! ## Cleaning -/

/-- What is left of two values of a field still differs only in the spelling of keys, and
equally much was removed. -/
def Content.CleanAlike (content : Content) (cleaned cleaned' : Cleaned Json) : Prop :=
  Option.Rel content.Respells cleaned.1 cleaned'.1 ∧ cleaned.2.length = cleaned'.2.length

theorem Content.CleanAlike.refl (content : Content) (cleaned : Cleaned Json) :
    content.CleanAlike cleaned cleaned := by
  refine ⟨?_, rfl⟩
  cases cleaned.1 with
  | none => exact .none
  | some json => exact .some (Respells.refl content json)

theorem Content.cleanAlike_settled {content : Content} {json json' : Json}
    (h : content.Respells json json')
    (hjudged : content.CleanAlike (content.judged json) (content.judged json')) :
    content.CleanAlike (content.settled json) (content.settled json') := by
  rw [settled, settled, ← h.isNull_eq]
  split
  · exact CleanAlike.refl content _
  · exact hjudged

namespace Fields

section Settled

variable {fields : Fields} {members members' : Json.Members}

/-- Members one by one, each after its field took what it can of it. -/
def settle (fields : Fields) (members : Json.Members) : Json.Members :=
  members.filterMap fun m => (fields.settled m).1.map (m.1, ·)

theorem own_settle_cons (field : Field) (rest : Fields) (members : Json.Members) :
    field.label.own ((cons field rest).settle members) =
      (field.label.own members).filterMap fun m =>
        (field.content.settled m.2).1.map (m.1, ·) := by
  refine (Assoc.filter_filterMap (fun key => field.label.keys.contains key) _ _).trans ?_
  refine List.filterMap_congr fun m hm => ?_
  rw [settled_cons, if_pos (Label.mem_own_iff.1 hm).2]

theorem others_settle_cons (field : Field) (rest : Fields) (members : Json.Members) :
    field.label.others ((cons field rest).settle members) =
      rest.settle (field.label.others members) := by
  refine (Assoc.filter_filterMap (fun key => !field.label.keys.contains key) _ _).trans ?_
  refine List.filterMap_congr fun m hm => ?_
  rw [settled_cons, if_neg (Label.mem_others_iff.1 hm).2]

theorem Respells.settle (h : fields.Respells members members')
    (hordered : (Json.object members).Ordered) (hordered' : (Json.object members').Ordered)
    (hsettled : ∀ field ∈ fields.toList, ∀ json json', json.Ordered → json'.Ordered →
      field.content.Respells json json' →
        field.content.CleanAlike (field.content.settled json) (field.content.settled json')) :
    fields.Respells (fields.settle members) (fields.settle members') := by
  induction fields using cons_induction generalizing members members' with
  | nil =>
    obtain rfl : members = members' := h
    exact rfl
  | cons field rest _ ih =>
    obtain ⟨hpairs, hrest⟩ := respells_cons_iff.1 h
    rw [toList_cons, List.forall_mem_cons] at hsettled
    obtain ⟨hfield, hsettled⟩ := hsettled
    rw [respells_cons_iff, others_settle_cons, others_settle_cons]
    refine ⟨?_, ih hrest (Label.ordered_others hordered) (Label.ordered_others hordered') hsettled⟩
    rw [Label.Pairs, own_settle_cons, own_settle_cons]
    rcases hpairs with hown | ⟨key, json, key', json', hown, hown', hvalue⟩
    · exact Or.inl (by rw [hown])
    · obtain ⟨hrel, -⟩ := hfield json json' (Label.ordered_of_own_eq_singleton hordered hown)
        (Label.ordered_of_own_eq_singleton hordered' hown') hvalue
      rw [hown, hown', List.filterMap_cons, List.filterMap_cons]
      dsimp only
      generalize (field.content.settled json).1 = kept at hrel ⊢
      generalize (field.content.settled json').1 = kept' at hrel ⊢
      cases hrel with
      | none => exact Or.inl rfl
      | some hkept => exact Or.inr ⟨key, _, key', _, rfl, rfl, hkept⟩

theorem respells_clean_of (hkeys : fields.Unambiguous) (hordered : (Json.object members).Ordered)
    (hordered' : (Json.object members').Ordered) (h : fields.Respells members members')
    (hjudged : ∀ field ∈ fields.toList, ∀ json json', json.Ordered → json'.Ordered →
      field.content.Respells json json' →
        field.content.CleanAlike (field.content.judged json) (field.content.judged json')) :
    fields.Respells (fields.clean [] members).1 (fields.clean [] members').1 ∧
      (fields.clean [] members).2.length = (fields.clean [] members').2.length := by
  have hsettled : ∀ field ∈ fields.toList, ∀ json json', json.Ordered → json'.Ordered →
      field.content.Respells json json' →
        field.content.CleanAlike (field.content.settled json) (field.content.settled json') :=
    fun field hfield json json' hjson hjson' hvalue =>
      Content.cleanAlike_settled hvalue (hjudged field hfield json json' hjson hjson' hvalue)
  have hlength : ∀ members, (Json.object members).Ordered →
      (fields.clean [] members).2.length = (members.map
        (fields.weight (fun content json => (content.settled json).2.length) 0)).sum := by
    intro members hordered
    rw [(clean_snd_perm hkeys hordered).length_eq, List.length_flatMap]
    refine congrArg List.sum (List.map_congr_left fun m _ => ?_)
    rw [List.length_map, settled, weight]
    cases fields.byKey? m.1 <;> rfl
  refine ⟨?_, ?_⟩
  · rw [clean_fst hkeys hordered, clean_fst hkeys hordered']
    exact h.settle hordered hordered' hsettled
  · rw [hlength members hordered, hlength members' hordered']
    exact h.sum_weight_eq hordered hordered' fun field hfield json json' hjson hjson' hvalue =>
      (hsettled field hfield json json' hjson hjson' hvalue).2

end Settled

end Fields

namespace Content

theorem judged_trees (message : Message) (items : List Json) :
    ((nestedList message).judged (.array items)).1 =
        some (.array (items.filterMap fun item => ((nested message).judged item).1)) ∧
      ((nestedList message).judged (.array items)).2.length =
        (items.map fun item => ((nested message).judged item).2.length).sum := by
  rw [judged_array rfl]
  constructor
  · refine congrArg (fun kept => some (Json.array kept)) ?_
    conv_rhs => rw [← List.zipIdx_map_fst 0 items, List.filterMap_map]
    rfl
  · exact length_flatMap_zipIdx (fun item => ((nested message).judged item).2)
      (fun i => Mistyped.below [.item i]) items

theorem cleanAlike_judged {content : Content}
    (hkeys : ∀ message ∈ content.message?, message.fields.Unambiguous) {json json' : Json}
    (hordered : json.Ordered) (hordered' : json'.Ordered) (h : content.Respells json json') :
    content.CleanAlike (content.judged json) (content.judged json') := by
  induction content using Content.induction generalizing json json' with
  | step content ih =>
    have hnested : ∀ message ∈ content.message?, ∀ json json', json.Ordered → json'.Ordered →
        (nested message).Respells json json' →
          (nested message).CleanAlike ((nested message).judged json)
            ((nested message).judged json') := by
      rintro message hmessage json json' hjson hjson' (rfl | ⟨members, members', rfl, rfl, h⟩)
      · exact CleanAlike.refl _ _
      · have hsub := hkeys message hmessage
        obtain ⟨hkept, hlength⟩ := Fields.respells_clean_of hsub hjson hjson' h
          fun field hfield json json' hj hj' hvalue => ih message hmessage field hfield
            (fun _ hheld => Fields.unambiguous_of_mem hsub hfield hheld) hj hj' hvalue
        rw [judged_nested, judged_nested]
        exact ⟨.some (Or.inr ⟨_, _, rfl, rfl, hkept⟩), hlength⟩
    cases content with
    | plain kind =>
      obtain rfl : json = json' := h
      exact CleanAlike.refl _ _
    | nested message => exact hnested message rfl json json' hordered hordered' h
    | nestedList message =>
      rcases h with rfl | ⟨items, items', rfl, rfl, hitems⟩
      · exact CleanAlike.refl _ _
      · obtain ⟨hkept, hlength⟩ := judged_trees message items
        obtain ⟨hkept', hlength'⟩ := judged_trees message items'
        have hall := (forall₂_mem hitems).imp fun item item' ⟨hitem, hitem', halike⟩ =>
          hnested message rfl item item' (Json.ordered_array_iff.1 hordered item hitem)
            (Json.ordered_array_iff.1 hordered' item' hitem') halike
        rw [CleanAlike, hkept, hkept', hlength, hlength']
        refine ⟨.some (Or.inr ⟨_, _, rfl, rfl, ?_⟩), congrArg List.sum ?_⟩
        · exact forall₂_filterMap hall fun item item' hrel => hrel.1
        · exact map_eq_map_of_forall₂ (fun item item' hrel => hrel.2) hall

end Content

/-- Cleaning respects the spelling of keys, and removes equally much. -/
theorem Fields.respells_clean {fields : Fields} (hkeys : fields.Unambiguous)
    {members members' : Json.Members} (hordered : (Json.object members).Ordered)
    (hordered' : (Json.object members').Ordered) (h : fields.Respells members members') :
    fields.Respells (fields.clean [] members).1 (fields.clean [] members').1 ∧
      (fields.clean [] members).2.length = (fields.clean [] members').2.length :=
  respells_clean_of hkeys hordered hordered' h fun _ hfield _ _ =>
    Content.cleanAlike_judged fun _ hheld => unambiguous_of_mem hkeys hfield hheld

/-! ## Reading -/

def Content.Readable : Content → Json → Prop
  | plain kind => kind.Readable
  | nested message => Json.ObjectOf message.fields.Readable
  | nestedList message => Json.ArrayOf (Json.ObjectOf message.fields.Readable)

theorem Fields.readable_cons_iff {field : Field} {rest : Fields} {members : Json.Members} :
    (cons field rest).Readable members ↔
      ((field.label.own members).length ≤ 1 ∧
        ∀ m ∈ field.label.own members, field.content.Readable m.2) ∧
        rest.Readable (field.label.others members) := by
  obtain ⟨label, content⟩ := field
  cases content <;> exact Iff.rfl

theorem Json.AlikeObjects.objectOf_iff {R : Members → Members → Prop} {P : Members → Prop}
    (hP : ∀ members members', R members members' → (P members ↔ P members')) {json json' : Json}
    (h : AlikeObjects R json json') : json.ObjectOf P ↔ json'.ObjectOf P := by
  rcases h with rfl | ⟨members, members', rfl, rfl, h⟩
  · exact Iff.rfl
  · exact hP members members' h

theorem Content.Respells.readable_iff {content : Content} {json json' : Json}
    (hfields : ∀ message ∈ content.message?, ∀ members members',
      message.fields.Respells members members' →
        (message.fields.Readable members ↔ message.fields.Readable members'))
    (h : content.Respells json json') : content.Readable json ↔ content.Readable json' := by
  cases content with
  | plain kind =>
    obtain rfl : json = json' := h
    exact Iff.rfl
  | nested message => exact Json.AlikeObjects.objectOf_iff (hfields message rfl) h
  | nestedList message =>
    rcases h with rfl | ⟨items, items', rfl, rfl, hitems⟩
    · exact Iff.rfl
    · exact forall_mem_iff_of_forall₂ hitems fun item item' =>
        Json.AlikeObjects.objectOf_iff (hfields message rfl)

theorem Fields.Respells.readable_iff {fields : Fields} {members members' : Json.Members}
    (h : fields.Respells members members') :
    fields.Readable members ↔ fields.Readable members' := by
  induction fields using cons_induction generalizing members members' with
  | nil => exact Iff.rfl
  | cons field rest ihsub ih =>
    obtain ⟨hpairs, hrest⟩ := respells_cons_iff.1 h
    have hown := forall₂_own hpairs
    rw [readable_cons_iff, readable_cons_iff, hown.length_eq, ih hrest]
    refine and_congr_left fun _ => and_congr_right fun _ => ?_
    exact forall_mem_iff_of_forall₂ hown fun m m' hvalue =>
      Content.Respells.readable_iff (fun message hmessage _ _ => ihsub message hmessage) hvalue

section Look

variable {α : Type} {field : Label} (read? : Json → Option α) {members members' : Json.Members}

theorem Label.look_own : field.look read? (field.own members) = field.look read? members :=
  look_congr fun key hkey =>
    (Assoc.find?_filter (fun key => field.keys.contains key) key members).trans
      (if_pos (List.contains_iff_mem.2 hkey))

theorem Label.Pairs.look_eq {R : Json → Json → Prop} (h : field.Pairs R members members')
    (hordered : (Json.object members).Ordered) (hordered' : (Json.object members').Ordered)
    (hread : ∀ json json', json.Ordered → json'.Ordered → R json json' →
      read? json = read? json') :
    field.look read? members = field.look read? members' := by
  rcases h with hown | ⟨key, json, key', json', hown, hown', hvalue⟩
  · rw [← look_own, hown, look_own]
  · rw [look_of_own_eq_singleton (Json.ordered_object_iff.1 hordered).1 hown,
      look_of_own_eq_singleton (Json.ordered_object_iff.1 hordered').1 hown']
    exact hread json json' (ordered_of_own_eq_singleton hordered hown)
      (ordered_of_own_eq_singleton hordered' hown') hvalue

end Look

section Sub

variable {α : Type} {R : Json.Members → Json.Members → Prop} {read : Json.Members → α}
  {json json' : Json} (hread : ∀ members members', (Json.object members).Ordered →
    (Json.object members').Ordered → R members members' → read members = read members')
  (hordered : json.Ordered) (hordered' : json'.Ordered)

include hread hordered hordered'

theorem Json.AlikeObjects.map_members? (h : json.AlikeObjects R json') :
    json.members?.map read = json'.members?.map read := by
  rcases h with rfl | ⟨members, members', rfl, rfl, h⟩
  · rfl
  · exact congrArg some (hread members members' hordered hordered' h)

theorem Json.AlikeArrays.map_items? (h : json.AlikeArrays (AlikeObjects R) json') :
    (json.items?.map fun items => items.filterMap fun item => item.members?.map read) =
      json'.items?.map fun items => items.filterMap fun item => item.members?.map read := by
  rcases h with rfl | ⟨items, items', rfl, rfl, hitems⟩
  · rfl
  · have hmap : (items.map fun item => item.members?.map read) =
        items'.map fun item => item.members?.map read := by
      refine map_eq_map_of_forall₂ ?_ (forall₂_mem hitems)
      rintro item item' ⟨hitem, hitem', h⟩
      exact h.map_members? hread (ordered_array_iff.1 hordered item hitem)
        (ordered_array_iff.1 hordered' item' hitem')
    have hsome := congrArg (List.filterMap id) hmap
    rw [List.filterMap_map, List.filterMap_map] at hsome
    exact congrArg some hsome

end Sub

/-- The same is gathered from objects that differ in the spelling of keys. -/
theorem Tree.gather_respelled {fields : Fields} (hkeys : fields.Unambiguous)
    {members members' : Json.Members} (hordered : (Json.object members).Ordered)
    (hordered' : (Json.object members').Ordered) (h : fields.Respells members members') :
    gather fields members = gather fields members' := by
  induction fields generalizing members members' with
  | nil => rfl
  | plain field kind rest ih =>
    obtain ⟨hfield, hrest⟩ := hkeys
    obtain ⟨hpairs, hothers⟩ := h
    have hmore := ih hrest (Label.ordered_others hordered) (Label.ordered_others hordered') hothers
    rw [gather_others hfield, gather_others hfield] at hmore
    have hlook := hpairs.look_eq kind.gather? hordered hordered' fun json json' _ _ heq =>
      congrArg _ heq
    rw [gather, gather, hlook, hmore]
  | nested field message sub rest ihsub ih =>
    obtain ⟨hfield, hsub, hrest⟩ := hkeys
    obtain ⟨hpairs, hothers⟩ := h
    have hmore := ih hrest (Label.ordered_others hordered) (Label.ordered_others hordered') hothers
    rw [gather_others hfield, gather_others hfield] at hmore
    have hlook := hpairs.look_eq (fun json => json.members?.map (gather sub)) hordered
      hordered' fun json json' hjson hjson' halike =>
        halike.map_members? (fun _ _ => ihsub hsub) hjson hjson'
    rw [gather, gather, hlook, hmore]
  | nestedList field message sub rest ihsub ih =>
    obtain ⟨hfield, hsub, hrest⟩ := hkeys
    obtain ⟨hpairs, hothers⟩ := h
    have hmore := ih hrest (Label.ordered_others hordered) (Label.ordered_others hordered') hothers
    rw [gather_others hfield, gather_others hfield] at hmore
    have hlook := hpairs.look_eq (fun json => json.items?.map fun items =>
      items.filterMap fun item => item.members?.map (gather sub)) hordered hordered'
        fun json json' hjson hjson' halike =>
          halike.map_items? (fun _ _ => ihsub hsub) hjson hjson'
    rw [gather, gather, hlook, hmore]

end LayeredConfig
