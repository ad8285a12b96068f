import LayeredConfig.Proofs.Message.Chain

/-!
# The reports of cleaning

Cleaning takes the path of what it cleans and only puts it in front of the paths
that it reports (`Relative`), so the reports on a part of a document are known from
the part alone.
-/

namespace LayeredConfig

/-- A report on a part of a document as a report on the document, where the part
stands at `path`. -/
def Mistyped.below (path : Json.Path) (report : Mistyped) : Mistyped :=
  ⟨path ++ report.path, report.expected⟩

@[simp] theorem Mistyped.below_below (path inner : Json.Path) (report : Mistyped) :
    (report.below inner).below path = report.below (path ++ inner) :=
  congrArg (Mistyped.mk · _) (List.append_assoc _ _ _).symm

/-- Cleaning puts the path of what it cleans in front of what it reports, and does
nothing else with it. -/
def Relative {α β : Type} (clean : Json.Path → α → β × List Mistyped) : Prop :=
  ∀ path value, clean path value =
    ((clean [] value).1, (clean [] value).2.map (Mistyped.below path))

theorem ValueType.relative_cleanItems (t : ValueType) (index : Nat) :
    Relative fun path => t.cleanItems path index := by
  intro path items
  induction items generalizing index with
  | nil => rfl
  | cons item items ih =>
    simp only [cleanItems, ih]
    split
    · rfl
    · simp [Mistyped.below]

namespace Kind

theorem relative_cleanEntries (key value : Scalar) : Relative (cleanEntries key value) := by
  intro path entries
  induction entries with
  | nil => rfl
  | cons e entries ih =>
    simp only [cleanEntries, ih]
    split
    · rfl
    · simp [Mistyped.below]

theorem relative_clean (kind : Kind) : Relative kind.clean := by
  intro path json
  cases kind with
  | leaf type =>
    simp only [clean]
    split <;> rfl
  | list type =>
    cases json with
    | array items => simp only [clean, type.relative_cleanItems 0 path items]
    | null | bool | number | string | object => rfl
  | map key value =>
    cases json with
    | object entries => simp only [clean, relative_cleanEntries key value path entries]
    | null | bool | number | string | array => rfl

end Kind

namespace Fields

section Sub

variable {clean : Json.Path → Json.Members → Json.Members × List Mistyped} (h : Relative clean)

include h

theorem relative_cleanNested : Relative (cleanNested clean) := by
  intro path json
  cases json with
  | object members => simp only [cleanNested, h path members]
  | null | bool | number | string | array => rfl

theorem relative_cleanTrees (name : String) (index : Nat) :
    Relative fun path => cleanTrees clean name path index := by
  intro path items
  induction items generalizing index with
  | nil => rfl
  | cons item items ih =>
    simp only [cleanTrees, ih, relative_cleanNested h (path ++ [.item index]),
      relative_cleanNested h ([] ++ [.item index])]
    cases (cleanNested clean [] item).1 with
    | none => simp [Mistyped.below]
    | some kept => simp

theorem relative_cleanNestedList (name : String) : Relative (cleanNestedList clean name) := by
  intro path json
  cases json with
  | array items => simp only [cleanNestedList, relative_cleanTrees h name 0 path items]
  | null | bool | number | string | object => rfl

end Sub

/-- What is left of a value, where a value that is not kept is reported as well. -/
def judge (expected : String) (path : Json.Path) (cleaned : Cleaned Json) : Cleaned Json :=
  (cleaned.1, cleaned.2 ++ if cleaned.1.isNone then [⟨path, expected⟩] else [])

@[simp] theorem judge_none (expected : String) (path : Json.Path) (dropped : List Mistyped) :
    judge expected path (none, dropped) = (none, dropped ++ [⟨path, expected⟩]) := rfl

@[simp] theorem judge_some (expected : String) (path : Json.Path) (kept : Json)
    (dropped : List Mistyped) : judge expected path (some kept, dropped) = (some kept, dropped) :=
  congrArg (some kept, ·) (List.append_nil dropped)

def cleanValue (clean : Json.Path → Json → Cleaned Json) (expected : String) (path : Json.Path)
    (json : Json) : Cleaned Json :=
  if json.isNull then (none, []) else judge expected path (clean path json)

/-- The members after the value at `key` was cleaned. -/
def putBack (key : String) (members : Json.Members) : Option Json → Json.Members
  | some kept => Assoc.insert key kept members
  | none => Assoc.erase key members

section Keys

variable {clean : Json.Path → Json → Cleaned Json} {expected key : String} {path : Json.Path}
  {members : Json.Members}

theorem cleanKey_of_find?_eq_none (h : Assoc.find? key members = none) :
    cleanKey clean expected path key members = (members, []) := by
  rw [cleanKey, h]

theorem cleanKey_of_find?_eq_some {json : Json} (h : Assoc.find? key members = some json) :
    cleanKey clean expected path key members =
      (putBack key members (cleanValue clean expected (path ++ [.member key]) json).1,
        (cleanValue clean expected (path ++ [.member key]) json).2) := by
  rw [cleanKey, h, cleanValue]
  cases json with
  | null => rfl
  | bool | number | string | array | object =>
    cases hclean : clean (path ++ [.member key]) _ with
    | mk kept dropped => cases kept <;> simp [Json.isNull, hclean, putBack]

variable (h : Relative clean)

include h

theorem relative_cleanValue (expected : String) : Relative (cleanValue clean expected) := by
  intro path json
  simp only [cleanValue, h path json]
  split
  · rfl
  · cases hclean : clean [] json with
    | mk kept dropped => cases kept <;> simp [Mistyped.below]

theorem relative_cleanKey (expected key : String) :
    Relative fun path => cleanKey clean expected path key := by
  intro path members
  dsimp only
  cases hfind : Assoc.find? key members with
  | none => simp only [cleanKey_of_find?_eq_none hfind, List.map_nil]
  | some json =>
    have hvalue := relative_cleanValue h expected
    simp only [cleanKey_of_find?_eq_some hfind, hvalue (_ ++ [.member key]) json]
    simp

theorem relative_cleanKeys (expected : String) (keys : List String) :
    Relative fun path => cleanKeys clean expected path keys := by
  intro path members
  induction keys generalizing members with
  | nil => rfl
  | cons key keys ih =>
    simp only [cleanKeys, relative_cleanKey h expected key path members, ih]
    simp

end Keys

end Fields

theorem Content.relative_clean_of {content : Content}
    (h : ∀ message ∈ content.message?, Relative message.fields.clean) :
    Relative content.clean := by
  cases content with
  | plain kind => exact kind.relative_clean
  | nested message => exact Fields.relative_cleanNested (h message rfl)
  | nestedList message => exact Fields.relative_cleanNestedList (h message rfl) _

theorem Fields.relative_clean (fields : Fields) : Relative fields.clean := by
  induction fields using cons_induction with
  | nil => exact fun path members => rfl
  | cons field rest ihsub ih =>
    intro path members
    have hfirst := relative_cleanKeys (Content.relative_clean_of ihsub) field.content.describe
      field.label.keys path members
    simp only [clean_cons, hfirst, ih path]
    simp

theorem Content.relative_clean (content : Content) : Relative content.clean :=
  relative_clean_of fun message _ => message.fields.relative_clean

/-! ## Cleaning member by member -/

namespace Content

/-- What is left of a value of a field that is there, and the reports on it. -/
def judged (content : Content) (json : Json) : Cleaned Json :=
  Fields.judge content.describe [] (content.clean [] json)

def settled (content : Content) (json : Json) : Cleaned Json :=
  if json.isNull then (none, []) else content.judged json

end Content

namespace Label

variable {field : Label} {members others : Json.Members}

/-- The members that a field finds, in the order of its keys. -/
def found (field : Label) (members : Json.Members) : Json.Members :=
  field.keys.filterMap fun key => (Assoc.find? key members).map (key, ·)

theorem found_perm_own (h : Assoc.Sorted members) :
    (field.found members).Perm (field.own members) := by
  have hfound : (field.found members).Nodup := by
    refine List.Nodup.filterMap (fun key key' m hm hm' => ?_) field.nodup_keys
    obtain ⟨json, -, rfl⟩ := Option.map_eq_some_iff.1 hm
    obtain ⟨json', -, heq⟩ := Option.map_eq_some_iff.1 hm'
    exact (congrArg Prod.fst heq).symm
  have hown : (field.own members).Nodup := List.Nodup.filter _ (h.nodup_keys.of_map _)
  refine (List.perm_ext_iff_of_nodup hfound hown).2 fun m => ?_
  obtain ⟨key, json⟩ := m
  simp only [found, List.mem_filterMap, Option.map_eq_some_iff, Prod.mk.injEq, mem_own_iff,
    Assoc.find?_eq_some_iff h.nodup_keys]
  constructor
  · rintro ⟨_, hkey, _, hmem, rfl, rfl⟩
    exact ⟨hmem, hkey⟩
  · rintro ⟨hmem, hkey⟩
    exact ⟨key, hkey, json, hmem, rfl, rfl⟩

theorem own_append_others_perm (field : Label) (members : Json.Members) :
    (field.own members ++ field.others members).Perm members :=
  List.filter_append_perm _ members

theorem others_congr (h : Assoc.Sorted members) (h' : Assoc.Sorted others)
    (hfind : ∀ key, key ∉ field.keys → Assoc.find? key members = Assoc.find? key others) :
    field.others members = field.others others :=
  h.filter_eq_of_find?_eq h' (p := fun key => !field.keys.contains key) fun key hkey =>
    hfind key (by simpa using hkey)

end Label

namespace Fields

variable {members : Json.Members}

theorem cleanKeys_snd {clean : Json.Path → Json → Cleaned Json} {expected : String}
    {path : Json.Path} {keys : List String} (hkeys : keys.Nodup) :
    (cleanKeys clean expected path keys members).2 =
      (keys.filterMap fun key => (Assoc.find? key members).map (key, ·)).flatMap fun m =>
        (cleanValue clean expected (path ++ [.member m.1]) m.2).2 := by
  induction keys generalizing members with
  | nil => rfl
  | cons key keys ih =>
    obtain ⟨hkey, hkeys⟩ := List.nodup_cons.1 hkeys
    -- The keys after the first find what they would have found at the start.
    have hlater : ((keys.filterMap fun k => (Assoc.find? k
          (cleanKey clean expected path key members).1).map (k, ·))) =
        keys.filterMap fun k => (Assoc.find? k members).map (k, ·) := by
      refine List.filterMap_congr fun k hk => ?_
      rw [find?_cleanKey_of_ne (ne_of_mem_of_not_mem hk hkey)]
    have hcons : (cleanKeys clean expected path (key :: keys) members).2 =
        (cleanKey clean expected path key members).2 ++
          (cleanKeys clean expected path keys (cleanKey clean expected path key members).1).2 := rfl
    rw [hcons, ih hkeys, hlater, List.filterMap_cons]
    cases hfind : Assoc.find? key members with
    | none => rw [cleanKey_of_find?_eq_none hfind]; rfl
    | some json => rw [cleanKey_of_find?_eq_some hfind]; rfl

theorem cleanKeys_snd_perm (field : Label) (content : Content) (hsorted : Assoc.Sorted members) :
    (cleanKeys content.clean content.describe [] field.keys members).2.Perm
      ((field.own members).flatMap fun m =>
        (content.settled m.2).2.map (Mistyped.below [.member m.1])) := by
  rw [cleanKeys_snd field.nodup_keys]
  refine ((Label.found_perm_own hsorted).flatMap_right _).trans (List.Perm.of_eq ?_)
  refine List.flatMap_congr fun m _ => ?_
  have hvalue := relative_cleanValue content.relative_clean content.describe [.member m.1] m.2
  rw [List.nil_append, hvalue, Content.settled, cleanValue]
  split <;> rfl

/-- What is left of a member, and the reports on it.  A member that belongs to no field
stays as it is. -/
def settled (fields : Fields) (m : String × Json) : Cleaned Json :=
  match fields.byKey? m.1 with
  | some field => field.content.settled m.2
  | none => (some m.2, [])

theorem settled_cons (field : Field) (rest : Fields) (m : String × Json) :
    (cons field rest).settled m =
      if m.1 ∈ field.label.keys then field.content.settled m.2 else rest.settled m := by
  rw [settled, byKey?_cons]
  by_cases hkey : m.1 ∈ field.label.keys
  · rw [if_pos hkey, if_pos hkey]
  · rw [if_neg hkey, if_neg hkey]
    rfl

theorem settled_of_not_mem {fields : Fields} {m : String × Json} (h : m.1 ∉ fields.keys) :
    fields.settled m = (some m.2, []) := by
  rw [settled, byKey?_eq_none_iff.2 h]

theorem settled_of_mem {fields : Fields} (hkeys : fields.Unambiguous) {field : Field}
    (hfield : field ∈ fields.toList) {m : String × Json} (hkey : m.1 ∈ field.label.keys) :
    fields.settled m = field.content.settled m.2 := by
  rw [settled, (byKey?_eq_some_iff hkeys).2 ⟨hfield, hkey⟩]

variable {fields : Fields} (hkeys : fields.Unambiguous) (hordered : (Json.object members).Ordered)

include hkeys hordered

/-- Where keys are unambiguous, cleaning leaves what is left of each member, in order. -/
theorem clean_fst (path : Json.Path) :
    (fields.clean path members).1 =
      members.filterMap fun m => (fields.settled m).1.map (m.1, ·) := by
  obtain ⟨hsorted, -⟩ := Json.ordered_object_iff.1 hordered
  obtain ⟨-, hcleaned, -⟩ := fields.cleansMembers path members hordered
  refine (Json.ordered_object_iff.1 hcleaned).1.eq_of_find?_eq (hsorted.filterMap _) fun key => ?_
  rw [Assoc.find?_filterMap hsorted.nodup_keys]
  cases hfield : fields.byKey? key with
  | none =>
    have hkey := byKey?_eq_none_iff.1 hfield
    rw [find?_clean_of_not_mem hkey]
    simp [settled_of_not_mem (m := (key, _)) hkey]
  | some field =>
    obtain ⟨hmem, hkey⟩ := mem_of_byKey?_eq_some hfield
    rw [find?_clean_of_mem hkeys hmem hkey hordered]
    refine Option.bind_congr fun json _ => ?_
    rw [settled_of_mem hkeys hmem hkey, Content.settled, Content.judged, judge,
      field.content.relative_clean]
    cases json with
    | null => exact field.content.cleans.null []
    | bool | number | string | array | object => rfl

theorem clean_snd_perm :
    (fields.clean [] members).2.Perm
      (members.flatMap fun m => (fields.settled m).2.map (Mistyped.below [.member m.1])) := by
  induction fields using cons_induction generalizing members with
  | nil => simp [settled, Fields.clean]
  | cons field rest _ ih =>
    obtain ⟨hfield, -, hrest⟩ := unambiguous_cons_iff.1 hkeys
    have hcleaned : (Json.object (cleanKeys field.content.clean field.content.describe []
        field.label.keys members).1).Ordered := ordered_cleanKeys field.content.cleans hordered
    obtain ⟨hsorted, -⟩ := Json.ordered_object_iff.1 hordered
    -- The other fields report on the members that the first field does not have.
    have hothers : (rest.clean [] (cleanKeys field.content.clean field.content.describe []
        field.label.keys members).1).2.Perm ((field.label.others members).flatMap fun m =>
          (rest.settled m).2.map (Mistyped.below [.member m.1])) := by
      have hsame : field.label.others (cleanKeys field.content.clean field.content.describe []
          field.label.keys members).1 = field.label.others members :=
        Label.others_congr (Json.ordered_object_iff.1 hcleaned).1 hsorted fun key hkey =>
          find?_cleanKeys_of_not_mem hkey
      refine (ih hrest hcleaned).trans ?_
      refine ((field.label.own_append_others_perm _).flatMap_right _).symm.trans ?_
      rw [hsame, List.flatMap_append, List.flatMap_eq_nil_iff.2, List.nil_append]
      intro m hm
      rw [settled_of_not_mem (hfield m.1 (Label.mem_own_iff.1 hm).2)]
      rfl
    rw [clean_cons]
    refine ((cleanKeys_snd_perm field.label field.content hsorted).append hothers).trans ?_
    refine List.Perm.trans ?_ ((field.label.own_append_others_perm members).flatMap_right _)
    rw [List.flatMap_append]
    refine List.Perm.of_eq (congrArg₂ _ ?_ ?_)
    · refine List.flatMap_congr fun m hm => ?_
      rw [settled_cons, if_pos (Label.mem_own_iff.1 hm).2]
    · refine List.flatMap_congr fun m hm => ?_
      rw [settled_cons, if_neg (Label.mem_others_iff.1 hm).2]

end Fields

/-! ## Cleaning item by item -/

namespace Content

/-- What each item of a list holds. -/
def item? : Content → Option Content
  | plain (.list type) => some (plain (.leaf type))
  | nestedList message => some (nested message)
  | plain _ | nested _ => none

theorem item?_cases {content inner : Content} (hinner : content.item? = some inner) :
    (∃ type, content = plain (.list type) ∧ inner = plain (.leaf type)) ∨
      ∃ message, content = nestedList message ∧ inner = nested message := by
  cases content with
  | plain kind =>
    cases kind with
    | list type => exact Or.inl ⟨type, rfl, (Option.some.inj hinner).symm⟩
    | leaf | map => cases hinner
  | nestedList message => exact Or.inr ⟨message, rfl, (Option.some.inj hinner).symm⟩
  | nested message => cases hinner

theorem judged_nested (message : Message) (members : Json.Members) :
    (nested message).judged (.object members) =
      (some (.object (message.fields.clean [] members).1), (message.fields.clean [] members).2) :=
  Fields.judge_some _ _ _ _

theorem judged_leaf (type : ValueType) (json : Json) :
    (plain (.leaf type)).judged json =
      if type.fits json then (some json, []) else (none, [⟨[], type.describe⟩]) := by
  rw [judged, clean, Kind.clean]
  split <;> rfl

theorem cleanItems_eq (type : ValueType) (index : Nat) (items : List Json) :
    type.cleanItems [] index items =
      ((items.zipIdx index).filterMap fun e => ((plain (.leaf type)).judged e.1).1,
        (items.zipIdx index).flatMap fun e =>
          ((plain (.leaf type)).judged e.1).2.map (Mistyped.below [.item e.2])) := by
  induction items generalizing index with
  | nil => rfl
  | cons item items ih =>
    rw [List.zipIdx_cons, List.filterMap_cons, List.flatMap_cons, ValueType.cleanItems, ih,
      judged_leaf]
    dsimp only
    split <;> rfl

theorem cleanTrees_eq (message : Message) (index : Nat) (items : List Json) :
    Fields.cleanTrees message.fields.clean message.label.name [] index items =
      ((items.zipIdx index).filterMap fun e => ((nested message).judged e.1).1,
        (items.zipIdx index).flatMap fun e =>
          ((nested message).judged e.1).2.map (Mistyped.below [.item e.2])) := by
  induction items generalizing index with
  | nil => rfl
  | cons item items ih =>
    rw [List.zipIdx_cons, List.filterMap_cons, List.flatMap_cons, Fields.cleanTrees, ih]
    cases item with
    | object members =>
      have hmembers := message.fields.relative_clean [.item index] members
      simp [judged, clean, Fields.cleanNested, hmembers]
    | null | bool | number | string | array => rfl

theorem judged_array {content inner : Content} (hinner : content.item? = some inner)
    (items : List Json) :
    content.judged (.array items) =
      (some (.array (items.zipIdx.filterMap fun e => (inner.judged e.1).1)),
        items.zipIdx.flatMap fun e => (inner.judged e.1).2.map (Mistyped.below [.item e.2])) := by
  obtain ⟨type, rfl, rfl⟩ | ⟨message, rfl, rfl⟩ := item?_cases hinner
  · simp only [judged, clean, Kind.clean, cleanItems_eq, Fields.judge_some]
  · simp only [judged, clean, Fields.cleanNestedList, cleanTrees_eq, Fields.judge_some]

end Content

end LayeredConfig
