import LayeredConfig.Proofs.Json.Path
import LayeredConfig.Proofs.Json.Without
import LayeredConfig.Proofs.Message.Report
import LayeredConfig.Proofs.Message.Taken
import LayeredConfig.Specimen

/-!
# What cleaning removes

`Content.Removes` and `Fields.Removes` say which parts of a document do not fit, by
recursion on the document alone: null under a known key, which is not reported, and
otherwise a value, an item or an entry that its field cannot hold, with what was
expected in its place.  Cleaning leaves the document without these parts, reports
each of the second sort once, and then finds nothing more
(`Message.clean_removes_exactly`).
-/

namespace LayeredConfig

namespace Content

/-- The shape that the value of a field needs in order to be kept at all. -/
def Accepts : Content → Json → Prop
  | plain (.leaf type), json => type.fits json = true
  | plain (.list _), json | nestedList _, json => ∃ items, json = .array items
  | plain (.map _ _), json | nested _, json => ∃ members, json = .object members

end Content

mutual

/-- In a value of a field, the part at a path does not fit, and `report` was expected
there. -/
inductive Content.Removes : Content → Json → Json.Path → Option String → Prop
  | whole {content : Content} {json : Json} (h : ¬ content.Accepts json) :
    Content.Removes content json [] (some content.describe)
  | item {content inner : Content} {items : List Json} {i : Nat} {json : Json} {path : Json.Path}
    {report : Option String} (hinner : content.item? = some inner) (hitem : items[i]? = some json)
    (h : Content.Removes inner json path report) :
    Content.Removes content (.array items) (.item i :: path) report
  | entry {key value : Scalar} {entries : Json.Members} {e : String × Json} (he : e ∈ entries)
    (h : Kind.entryFits key value e = false) :
    Content.Removes (.plain (.map key value)) (.object entries) [.member e.1]
      (some (key.name ++ " => " ++ value.name))
  | nested {message : Message} {members : Json.Members} {path : Json.Path}
    {report : Option String} (h : Fields.Removes message.fields members path report) :
    Content.Removes (.nested message) (.object members) path report

/-- Among the members of an object, the part at a path is null or does not fit; in the
second case `report` was expected there. -/
inductive Fields.Removes : Fields → Json.Members → Json.Path → Option String → Prop
  | null {fields : Fields} {members : Json.Members} {field : Field} {key : String}
    (hfield : field ∈ fields.toList) (hkey : key ∈ field.label.keys)
    (hmem : (key, Json.null) ∈ members) : Fields.Removes fields members [.member key] none
  | member {fields : Fields} {members : Json.Members} {field : Field} {key : String} {json : Json}
    {path : Json.Path} {report : Option String} (hfield : field ∈ fields.toList)
    (hkey : key ∈ field.label.keys) (hmem : (key, json) ∈ members) (hnull : json ≠ .null)
    (h : Content.Removes field.content json path report) :
    Fields.Removes fields members (.member key :: path) report

end

/-- A document for a message has a part that is null or does not fit. -/
inductive Message.Removes (message : Message) : Json → Json.Path → Option String → Prop
  | members {members : Json.Members} {path : Json.Path} {report : Option String}
    (h : message.fields.Removes members path report) : Removes message (.object members) path report

open Classical in
/-- Whether a part is removed, with a report or without. -/
noncomputable def gone (removes : Json.Path → Option String → Prop) (path : Json.Path) : Bool :=
  decide (∃ report, removes path report)

open Classical in
theorem gone_eq_true_iff {removes : Json.Path → Option String → Prop} {path : Json.Path} :
    gone removes path = true ↔ ∃ report, removes path report := decide_eq_true_iff

theorem gone_eq_false_iff {removes : Json.Path → Option String → Prop} {path : Json.Path} :
    gone removes path = false ↔ ∀ report, ¬ removes path report := by
  rw [← Bool.not_eq_true, gone_eq_true_iff, not_exists]

/-- What is left of a part is the part without what `removes` says, and the reports are
those of `removes`, each once. -/
structure Exact (cleaned : Cleaned Json) (json : Json)
    (removes : Json.Path → Option String → Prop) : Prop where
  kept : cleaned.1 = json.keep? (gone removes)
  mem_reports : ∀ path expected, ⟨path, expected⟩ ∈ cleaned.2 ↔ removes path (some expected)
  nodup : (cleaned.2.map Mistyped.path).Nodup

namespace Exact

variable {json : Json} {removes : Json.Path → Option String → Prop}

theorem of_none (h : ∀ path report, ¬ removes path report) :
    Exact (some json, []) json removes where
  kept := (Json.keep?_eq_some_self fun path => gone_eq_false_iff.2 (h path)).symm
  mem_reports path _ := ⟨nofun, fun hremoves => (h path _ hremoves).elim⟩
  nodup := List.nodup_nil

theorem of_whole {expected : String}
    (h : ∀ path report, removes path report ↔ path = [] ∧ report = some expected) :
    Exact (none, [⟨[], expected⟩]) json removes where
  kept := (Json.keep?_eq_none (gone_eq_true_iff.2 ⟨_, (h _ _).2 ⟨rfl, rfl⟩⟩)).symm
  mem_reports path expected' := by simp [h]
  nodup := List.nodup_singleton _

theorem of_silent (h : ∀ path report, removes path report ↔ path = [] ∧ report = none) :
    Exact (none, []) json removes where
  kept := (Json.keep?_eq_none (gone_eq_true_iff.2 ⟨_, (h _ _).2 ⟨rfl, rfl⟩⟩)).symm
  mem_reports path expected := by simp [h]
  nodup := List.nodup_nil

theorem congr {cleaned : Cleaned Json} {removes' : Json.Path → Option String → Prop}
    (h : Exact cleaned json removes)
    (hiff : ∀ path report, removes path report ↔ removes' path report) :
    Exact cleaned json removes' := by
  obtain rfl : removes = removes' := funext₂ fun path report => propext (hiff path report)
  exact h

end Exact

/-! ## Parts of arrays and objects -/

section Parts

variable {α : Type} {parts : List α} {step : α → Json.Step}

theorem mem_flatMap_below {reports : α → List Mistyped} {path : Json.Path} {expected : String} :
    ⟨path, expected⟩ ∈ (parts.flatMap fun a => (reports a).map (Mistyped.below [step a])) ↔
      ∃ a ∈ parts, ∃ inner, path = step a :: inner ∧ ⟨inner, expected⟩ ∈ reports a := by
  simp only [List.mem_flatMap, List.mem_map, Mistyped.below, Mistyped.mk.injEq]
  refine exists_congr fun a => and_congr_right fun _ => ⟨?_, ?_⟩
  · rintro ⟨⟨inner, _⟩, hmem, rfl, rfl⟩
    exact ⟨inner, rfl, hmem⟩
  · rintro ⟨inner, rfl, hmem⟩
    exact ⟨_, hmem, rfl, rfl⟩

theorem nodup_flatMap_below {reports : α → List Mistyped} (hsteps : (parts.map step).Nodup)
    (hreports : ∀ a ∈ parts, ((reports a).map Mistyped.path).Nodup) :
    ((parts.flatMap fun a => (reports a).map (Mistyped.below [step a])).map
      Mistyped.path).Nodup := by
  have hpaths : (parts.flatMap fun a => (reports a).map (Mistyped.below [step a])).map
      Mistyped.path = parts.flatMap fun a => ((reports a).map Mistyped.path).map
        (List.cons (step a)) := by
    rw [List.map_flatMap]
    refine List.flatMap_congr fun a _ => ?_
    rw [List.map_map, List.map_map]
    rfl
  rw [hpaths]
  exact Json.Path.nodup_flatMap_cons hsteps hreports

/-- A document is cleaned by cleaning its parts one by one. -/
theorem Exact.of_parts {json kept : Json} {reports : List Mistyped} {value : α → Json}
    {clean : α → Cleaned Json} {removes : Json.Path → Option String → Prop}
    {inner : α → Json.Path → Option String → Prop} (hsteps : (parts.map step).Nodup)
    (hparts : ∀ a ∈ parts, Exact (clean a) (value a) (inner a))
    (hremoves : ∀ path report, removes path report ↔
      ∃ a ∈ parts, ∃ rest, path = step a :: rest ∧ inner a rest report)
    (hkept : (∀ a ∈ parts, ((value a).keep? fun path => gone removes (step a :: path)) =
      (clean a).1) → json.without (gone removes) = kept)
    (hreports : reports.Perm
      (parts.flatMap fun a => (clean a).2.map (Mistyped.below [step a]))) :
    Exact (some kept, reports) json removes where
  kept := by
    have htop : gone removes [] = false := by
      refine gone_eq_false_iff.2 fun report h => ?_
      obtain ⟨a, -, rest, hpath, -⟩ := (hremoves _ _).1 h
      cases hpath
    rw [Json.keep?_eq_some htop, hkept]
    intro a ha
    have hinner : ∀ path report, removes (step a :: path) report ↔ inner a path report := by
      refine fun path report => (hremoves _ _).trans ⟨?_, fun h => ⟨a, ha, path, rfl, h⟩⟩
      rintro ⟨b, hb, rest, hpath, h⟩
      obtain ⟨hstep, rfl⟩ := List.cons.inj hpath
      rwa [List.inj_on_of_nodup_map hsteps ha hb hstep]
    have hgone : (fun path => gone removes (step a :: path)) = gone (inner a) := by
      funext path
      rw [Bool.eq_iff_iff, gone_eq_true_iff, gone_eq_true_iff]
      exact exists_congr (hinner path)
    rw [hgone, (hparts a ha).kept]
  mem_reports path expected := by
    rw [hremoves]
    refine hreports.mem_iff.trans (mem_flatMap_below.trans (exists_congr fun a => ?_))
    refine and_congr_right fun ha => exists_congr fun rest => and_congr_right fun _ => ?_
    exact (hparts a ha).mem_reports rest expected
  nodup := ((hreports.map _).nodup_iff).2
    (nodup_flatMap_below hsteps fun a ha => (hparts a ha).nodup)

end Parts

namespace Exact

variable {removes : Json.Path → Option String → Prop}

theorem array {items : List Json} {clean : Json × Nat → Cleaned Json}
    {inner : Json × Nat → Json.Path → Option String → Prop}
    (hitems : ∀ e ∈ items.zipIdx, Exact (clean e) e.1 (inner e))
    (hremoves : ∀ path report, removes path report ↔
      ∃ e ∈ items.zipIdx, ∃ rest, path = .item e.2 :: rest ∧ inner e rest report) :
    Exact (some (.array (items.zipIdx.filterMap fun e => (clean e).1)),
      items.zipIdx.flatMap fun e => (clean e).2.map (Mistyped.below [.item e.2]))
      (.array items) removes := by
  refine of_parts (Json.Path.nodup_map_item items) hitems hremoves (fun hkept => ?_)
    (List.Perm.refl _)
  rw [Json.without, Json.withoutItems_eq_filterMap, List.filterMap_congr hkept]

theorem object {members kept : Json.Members} {reports : List Mistyped}
    (clean : String × Json → Cleaned Json)
    (inner : String × Json → Json.Path → Option String → Prop) (hsorted : Assoc.Sorted members)
    (hmembers : ∀ m ∈ members, Exact (clean m) m.2 (inner m))
    (hremoves : ∀ path report, removes path report ↔ ∃ m ∈ members, ∃ rest,
      path = .member m.1 :: rest ∧ inner m rest report)
    (hkept : kept = members.filterMap fun m => (clean m).1.map (m.1, ·))
    (hreports : reports.Perm
      (members.flatMap fun m => (clean m).2.map (Mistyped.below [.member m.1]))) :
    Exact (some (.object kept), reports) (.object members) removes := by
  refine of_parts (Json.Path.nodup_map_member hsorted) hmembers hremoves (fun h => ?_) hreports
  rw [Json.without, Json.withoutMembers_eq_filterMap, hkept]
  exact congrArg _ (List.filterMap_congr fun m hm => congrArg (·.map (m.1, ·)) (h m hm))

end Exact

/-! ## The value of a field -/

namespace Content

variable {content inner : Content} {json : Json} {path : Json.Path} {report : Option String}

theorem clean_of_not_accepts (h : ¬ content.Accepts json) : content.clean [] json = (none, []) := by
  cases content with
  | plain kind =>
    cases kind with
    | leaf type => exact if_neg h
    | list type =>
      cases json with
      | array items => exact absurd ⟨items, rfl⟩ h
      | null | bool | number | string | object => rfl
    | map key value =>
      cases json with
      | object entries => exact absurd ⟨entries, rfl⟩ h
      | null | bool | number | string | array => rfl
  | nested message =>
    cases json with
    | object members => exact absurd ⟨members, rfl⟩ h
    | null | bool | number | string | array => rfl
  | nestedList message =>
    cases json with
    | array items => exact absurd ⟨items, rfl⟩ h
    | null | bool | number | string | object => rfl

theorem accepts_array (hinner : content.item? = some inner) (items : List Json) :
    content.Accepts (.array items) := by
  obtain ⟨type, rfl, -⟩ | ⟨message, rfl, -⟩ := item?_cases hinner
  · exact ⟨items, rfl⟩
  · exact ⟨items, rfl⟩

theorem exact_of_not_accepts (h : ¬ content.Accepts json) :
    Exact (content.judged json) json (content.Removes json) := by
  rw [judged, clean_of_not_accepts h, Fields.judge_none]
  refine Exact.of_whole fun path report => ⟨fun hremoves => ?_, ?_⟩
  · cases hremoves with
    | whole => exact ⟨rfl, rfl⟩
    | item hinner => exact absurd (accepts_array hinner _) h
    | entry he hfits => exact absurd ⟨_, rfl⟩ h
    | nested hremoves => exact absurd ⟨_, rfl⟩ h
  · rintro ⟨rfl, rfl⟩
    exact .whole h

theorem exact_leaf {type : ValueType} (h : type.fits json = true) :
    Exact ((plain (.leaf type)).judged json) json ((plain (.leaf type)).Removes json) := by
  rw [judged_leaf, if_pos h]
  refine Exact.of_none fun path report hremoves => ?_
  cases hremoves with
  | whole hnot => exact hnot h
  | item hinner => cases hinner

theorem exact_array (hinner : content.item? = some inner) {items : List Json}
    (h : ∀ item ∈ items, Exact (inner.judged item) item (inner.Removes item)) :
    Exact (content.judged (.array items)) (.array items) (content.Removes (.array items)) := by
  rw [judged_array hinner]
  refine Exact.array (fun e he => h e.1 (List.fst_mem_of_mem_zipIdx he)) fun path report => ?_
  constructor
  · intro hremoves
    cases hremoves with
    | whole hnot => exact absurd (accepts_array hinner items) hnot
    | item hinner' hitem hremoves =>
      obtain rfl := Option.some.inj (hinner.symm.trans hinner')
      exact ⟨(_, _), List.mem_zipIdx_iff_getElem?.2 hitem, _, rfl, hremoves⟩
  · rintro ⟨⟨item, i⟩, he, rest, rfl, hremoves⟩
    exact .item hinner (List.mem_zipIdx_iff_getElem?.1 he) hremoves

def settledEntry (key value : Scalar) (e : String × Json) : Cleaned Json :=
  if Kind.entryFits key value e then (some e.2, [])
  else (none, [⟨[], key.name ++ " => " ++ value.name⟩])

theorem cleanEntries_eq (key value : Scalar) (entries : Json.Members) :
    Kind.cleanEntries key value [] entries =
      (entries.filterMap fun e => (settledEntry key value e).1.map (e.1, ·),
        entries.flatMap fun e =>
          (settledEntry key value e).2.map (Mistyped.below [.member e.1])) := by
  induction entries with
  | nil => rfl
  | cons e entries ih =>
    rw [List.filterMap_cons, List.flatMap_cons, Kind.cleanEntries, ih, settledEntry, Kind.entryFits]
    dsimp only
    split <;> rfl

theorem exact_map {key value : Scalar} {entries : Json.Members} (hsorted : Assoc.Sorted entries) :
    Exact ((plain (.map key value)).judged (.object entries)) (.object entries)
      ((plain (.map key value)).Removes (.object entries)) := by
  have hclean : (plain (.map key value)).judged (.object entries) =
      (some (.object (entries.filterMap fun e => (settledEntry key value e).1.map (e.1, ·))),
        entries.flatMap fun e =>
          (settledEntry key value e).2.map (Mistyped.below [.member e.1])) := by
    simp only [judged, clean, Kind.clean, cleanEntries_eq, Fields.judge_some]
  rw [hclean]
  refine Exact.object (settledEntry key value) (fun e path report =>
    Kind.entryFits key value e = false ∧ path = [] ∧
      report = some (key.name ++ " => " ++ value.name)) hsorted (fun e he => ?_)
    (fun path report => ?_) rfl (List.Perm.refl _)
  · rw [settledEntry]
    split
    · rename_i hfits
      exact Exact.of_none fun path report hremoves => by simp [hfits] at hremoves
    · rename_i hfits
      exact Exact.of_whole fun path report => and_iff_right (Bool.eq_false_iff.2 hfits)
  · constructor
    · intro hremoves
      cases hremoves with
      | whole hnot => exact absurd ⟨_, rfl⟩ hnot
      | entry he hfits => exact ⟨_, he, [], rfl, hfits, rfl, rfl⟩
    · rintro ⟨e, he, _, rfl, hfits, rfl, rfl⟩
      exact .entry he hfits

theorem exact_nested {message : Message} {members : Json.Members}
    (h : Exact (some (.object (message.fields.clean [] members).1),
      (message.fields.clean [] members).2) (.object members) (message.fields.Removes members)) :
    Exact ((nested message).judged (.object members)) (.object members)
      ((nested message).Removes (.object members)) := by
  rw [judged_nested]
  refine h.congr fun path report => ⟨.nested, fun hremoves => ?_⟩
  cases hremoves with
  | whole hnot => exact absurd ⟨_, rfl⟩ hnot
  | nested hremoves => exact hremoves

end Content

/-! ## The members of an object -/

namespace Fields

variable {fields : Fields} {members : Json.Members}

theorem exact_settled {content : Content} {json : Json}
    (h : Exact (content.judged json) json (content.Removes json)) :
    Exact (content.settled json) json fun path report =>
      (json = .null ∧ path = [] ∧ report = none) ∨
        (json ≠ .null ∧ content.Removes json path report) := by
  cases json with
  | null => exact Exact.of_silent fun path report => by simp
  | bool | number | string | array | object => exact h.congr fun path report => by simp

theorem exact_clean (hkeys : fields.Unambiguous) (hordered : (Json.object members).Ordered)
    (h : ∀ field ∈ fields.toList, ∀ json, json.Ordered →
      Exact (field.content.judged json) json (field.content.Removes json)) :
    Exact (some (.object (fields.clean [] members).1), (fields.clean [] members).2)
      (.object members) (fields.Removes members) := by
  obtain ⟨hsorted, hvalues⟩ := Json.ordered_object_iff.1 hordered
  refine Exact.object fields.settled (fun m path report =>
    ∃ field ∈ fields.toList, m.1 ∈ field.label.keys ∧
      ((m.2 = .null ∧ path = [] ∧ report = none) ∨
        (m.2 ≠ .null ∧ field.content.Removes m.2 path report)))
    hsorted (fun m hm => ?_) (fun path report => ?_) (clean_fst hkeys hordered [])
    (clean_snd_perm hkeys hordered)
  · cases hfield : fields.byKey? m.1 with
    | none =>
      have hkey := byKey?_eq_none_iff.1 hfield
      rw [settled_of_not_mem hkey]
      refine Exact.of_none fun path report => ?_
      rintro ⟨field, hmem, hown, -⟩
      exact hkey (mem_keys_of_mem_toList hmem hown)
    | some field =>
      obtain ⟨hmem, hkey⟩ := mem_of_byKey?_eq_some hfield
      rw [settled_of_mem hkeys hmem hkey]
      refine (exact_settled (h field hmem m.2 (hvalues m hm))).congr fun path report => ?_
      refine ⟨fun hremoves => ⟨field, hmem, hkey, hremoves⟩, ?_⟩
      rintro ⟨other, hother, hkey', hremoves⟩
      have hsame := (byKey?_eq_some_iff hkeys).2 ⟨hother, hkey'⟩
      rwa [Option.some.inj (hfield.symm.trans hsame)]
  · constructor
    · intro hremoves
      cases hremoves with
      | null hfield hkey hmem => exact ⟨_, hmem, _, rfl, _, hfield, hkey, Or.inl ⟨rfl, rfl, rfl⟩⟩
      | member hfield hkey hmem hnull h =>
        exact ⟨_, hmem, _, rfl, _, hfield, hkey, Or.inr ⟨hnull, h⟩⟩
    · rintro ⟨⟨key, json⟩, hm, rest, rfl, field, hfield, hkey, ⟨hnull, rfl, rfl⟩ | ⟨hnull, h⟩⟩
      · obtain rfl : json = .null := hnull
        exact .null hfield hkey hm
      · exact .member hfield hkey hm hnull h

end Fields

theorem Content.exact_of {content : Content} {json : Json} (hordered : json.Ordered)
    (h : ∀ message ∈ content.message?, ∀ members, (Json.object members).Ordered →
      Exact (some (.object (message.fields.clean [] members).1),
        (message.fields.clean [] members).2) (.object members) (message.fields.Removes members)) :
    Exact (content.judged json) json (content.Removes json) := by
  by_cases haccepts : content.Accepts json
  · cases content with
    | plain kind =>
      cases kind with
      | leaf type => exact exact_leaf haccepts
      | list type =>
        obtain ⟨items, rfl⟩ := haccepts
        refine exact_array rfl fun item hitem => ?_
        by_cases hfits : type.fits item = true
        · exact exact_leaf hfits
        · exact exact_of_not_accepts hfits
      | map key value =>
        obtain ⟨entries, rfl⟩ := haccepts
        exact exact_map (Json.ordered_object_iff.1 hordered).1
    | nested message =>
      obtain ⟨members, rfl⟩ := haccepts
      exact exact_nested (h message rfl members hordered)
    | nestedList message =>
      obtain ⟨items, rfl⟩ := haccepts
      refine exact_array rfl fun item hitem => ?_
      by_cases hobject : (nested message).Accepts item
      · obtain ⟨members, rfl⟩ := hobject
        exact exact_nested (h message rfl members (Json.ordered_array_iff.1 hordered _ hitem))
      · exact exact_of_not_accepts hobject
  · exact exact_of_not_accepts haccepts

/-- Cleaning the value of a field, at every depth. -/
theorem Content.exact {content : Content}
    (hkeys : ∀ message ∈ content.message?, message.fields.Unambiguous) {json : Json}
    (hordered : json.Ordered) : Exact (content.judged json) json (content.Removes json) := by
  induction content using Content.induction generalizing json with
  | step content ih =>
    refine exact_of hordered fun message hmessage members hmembers => ?_
    refine Fields.exact_clean (hkeys message hmessage) hmembers fun field hfield json hjson => ?_
    exact ih message hmessage field hfield
      (fun _ hheld => Fields.unambiguous_of_mem (hkeys message hmessage) hfield hheld) hjson

/-! ## Cleaning once more -/

namespace Content

variable {content inner : Content} {json : Json}

theorem ne_null_of_fits (h : content.Fits json) : json ≠ .null := by
  cases content with
  | plain kind => exact Kind.ne_null_of_fits h
  | nested message => exact Json.ObjectOf.ne_null h
  | nestedList message => exact Json.ArrayOf.ne_null h

theorem accepts_of_fits (h : content.Fits json) : content.Accepts json := by
  cases content with
  | plain kind =>
    cases kind with
    | leaf type => exact h
    | list type => exact Json.ArrayOf.exists_eq h
    | map key value => exact Json.ObjectOf.exists_eq h
  | nested message => exact Json.ObjectOf.exists_eq h
  | nestedList message => exact Json.ArrayOf.exists_eq h

theorem fits_item (hinner : content.item? = some inner) {items : List Json}
    (h : content.Fits (.array items)) {item : Json} (hitem : item ∈ items) : inner.Fits item := by
  obtain ⟨type, rfl, rfl⟩ | ⟨message, rfl, rfl⟩ := item?_cases hinner
  · exact h item hitem
  · exact h item hitem

theorem message?_item (hinner : content.item? = some inner) {message : Message}
    (h : message ∈ inner.message?) : message ∈ content.message? := by
  obtain ⟨type, rfl, rfl⟩ | ⟨held, rfl, rfl⟩ := item?_cases hinner
  · cases h
  · exact h

end Content

mutual

theorem Content.Removes.not_fits {content : Content} {json : Json} {path : Json.Path}
    {report : Option String} (hkeys : ∀ message ∈ content.message?, message.fields.Unambiguous) :
    content.Removes json path report → ¬ content.Fits json
  | .whole h, hfits => h (Content.accepts_of_fits hfits)
  | .item hinner hitem h, hfits =>
    h.not_fits (fun message hmessage => hkeys message (Content.message?_item hinner hmessage))
      (Content.fits_item hinner hfits (List.mem_of_getElem? hitem))
  | .entry he h, hfits => Bool.false_ne_true (h.symm.trans (hfits _ he))
  | .nested h, hfits => h.not_fits (hkeys _ rfl) hfits

theorem Fields.Removes.not_fits {fields : Fields} {members : Json.Members} {path : Json.Path}
    {report : Option String} (hkeys : fields.Unambiguous) :
    fields.Removes members path report → ¬ fields.Fits members
  | .null hfield hkey hmem, hfits =>
    Content.ne_null_of_fits (Fields.fits_of_mem hkeys hfits hfield hmem hkey) rfl
  | .member hfield hkey hmem _ h, hfits =>
    h.not_fits (fun _ hmessage => Fields.unambiguous_of_mem hkeys hfield hmessage)
      (Fields.fits_of_mem hkeys hfits hfield hmem hkey)

end

theorem Json.at?_member {members : Members} (hsorted : Assoc.Sorted members) {key : String}
    {json : Json} (hmem : (key, json) ∈ members) (path : Path) :
    (object members).at? (.member key :: path) = json.at? path := by
  have hfind := (Assoc.find?_eq_some_iff hsorted.nodup_keys).2 hmem
  rw [at?, get?, hfind]
  rfl

theorem Json.at?_item {items : List Json} {i : Nat} {json : Json} (hitem : items[i]? = some json)
    (path : Path) : (array items).at? (.item i :: path) = json.at? path := by
  rw [at?, hitem]
  rfl

mutual

theorem Content.Removes.isSome_at? {content : Content} {json : Json} {path : Json.Path}
    {report : Option String} (hordered : json.Ordered) :
    content.Removes json path report → (json.at? path).isSome
  | .whole _ => rfl
  | .item _ hitem h => by
    rw [Json.at?_item hitem]
    exact h.isSome_at? (Json.ordered_array_iff.1 hordered _ (List.mem_of_getElem? hitem))
  | .entry he _ => by
    rw [Json.at?_member (Json.ordered_object_iff.1 hordered).1 he]
    rfl
  | .nested h => h.isSome_at? hordered

theorem Fields.Removes.isSome_at? {fields : Fields} {members : Json.Members} {path : Json.Path}
    {report : Option String} (hordered : (Json.object members).Ordered) :
    fields.Removes members path report → ((Json.object members).at? path).isSome
  | .null _ _ hmem => by
    rw [Json.at?_member (Json.ordered_object_iff.1 hordered).1 hmem]
    rfl
  | .member _ _ hmem _ h => by
    obtain ⟨hsorted, hvalues⟩ := Json.ordered_object_iff.1 hordered
    rw [Json.at?_member hsorted hmem]
    exact h.isSome_at? (hvalues _ hmem)

end

namespace Exact

variable {json kept : Json} {reports : List Mistyped}
  {removes : Json.Path → Option String → Prop}

theorem eq_without (h : Exact (some kept, reports) json removes) :
    kept = json.without (gone removes) := by
  have hkept := h.kept
  rw [Json.keep?] at hkept
  split at hkept
  · cases hkept
  · exact Option.some.inj hkept

theorem eq_self (h : Exact (some kept, reports) json removes)
    (hnone : ∀ path report, ¬ removes path report) : kept = json ∧ reports = [] := by
  refine ⟨h.eq_without.trans (Json.without_eq_self fun path => ?_), ?_⟩
  · exact gone_eq_false_iff.2 (hnone path)
  · exact List.eq_nil_iff_forall_not_mem.2 fun report hreport =>
      hnone report.path _ ((h.mem_reports report.path report.expected).1 hreport)

end Exact

namespace Message

variable {message : Message} {json : Json}

theorem exact_clean (hkeys : message.fields.Unambiguous) (hordered : json.Ordered) :
    Exact (some (message.clean json).1, (message.clean json).2) json (message.Removes json) := by
  cases json with
  | object members =>
    have hmembers := Fields.exact_clean hkeys hordered fun field hfield json hjson =>
      Content.exact (fun sub => Fields.unambiguous_of_mem hkeys hfield) hjson
    refine hmembers.congr fun path report => ⟨.members, ?_⟩
    rintro ⟨h⟩
    exact h
  | null | bool | number | string | array => exact Exact.of_none fun path report => nofun

/-- Where keys are unambiguous, a document is left without exactly the parts that do not fit,
each of which stands in the document.  Those that are not null under a known key are
reported, each once.  What is left is not cleaned any further, and a document that is no
object is left as it is. -/
theorem clean_removes_exactly (hkeys : message.fields.Unambiguous) (hordered : json.Ordered) :
    (message.clean json).1 = json.without (gone (message.Removes json)) ∧
    (∀ path report, message.Removes json path report → (json.at? path).isSome) ∧
    (∀ path expected, ⟨path, expected⟩ ∈ (message.clean json).2 ↔
      message.Removes json path (some expected)) ∧
    ((message.clean json).2.map Mistyped.path).Nodup ∧
    message.clean (message.clean json).1 = ((message.clean json).1, []) ∧
    ((∀ members, json ≠ .object members) → message.clean json = (json, [])) := by
  have hexact := exact_clean hkeys hordered
  refine ⟨hexact.eq_without, ?_, hexact.mem_reports, hexact.nodup, ?_, ?_⟩
  · rintro path report ⟨h⟩
    exact h.isSome_at? hordered
  · cases json with
    | object members =>
      obtain ⟨-, hcleaned, hfits⟩ := message.fields.cleansMembers [] members hordered
      have hagain : Exact (some (message.clean (message.clean (.object members)).1).1,
          (message.clean (message.clean (.object members)).1).2)
          (message.clean (.object members)).1
          (message.Removes (message.clean (.object members)).1) := exact_clean hkeys hcleaned
      obtain ⟨hkept, hreports⟩ := hagain.eq_self fun path report h => by
        cases h with
        | members h => exact h.not_fits hkeys hfits
      exact Prod.ext hkept hreports
    | null | bool | number | string | array => rfl
  · intro hobject
    cases json with
    | object members => exact absurd rfl (hobject members)
    | null | bool | number | string | array => rfl

/-- A document with nulls, with members of no field and with parts that do not fit. -/
def mixedDocument : Json :=
  .object [("childList", .array
      [.object [("flag", .string "yes"), ("tags", .null)], .null,
        .object [("extra", .null), ("tags", .array [.null, .string "a", .bool true])]]),
    ("extra", .null),
    ("labels", .object [("byFlag", .object [("maybe", .string "x"), ("true", .string "y")])]),
    ("modes", .null)]

theorem clean_mixedDocument :
    Specimen.sink.fields.Unambiguous ∧ mixedDocument.Ordered ∧
      ∀ path expected, Specimen.sink.Removes mixedDocument path (some expected) ↔
        ⟨path, expected⟩ ∈ [
          Mistyped.mk [.member "childList", .item 0, .member "flag"] "bool",
          ⟨[.member "childList", .item 1], "Leafy"⟩,
          ⟨[.member "childList", .item 2, .member "tags", .item 0], "string"⟩,
          ⟨[.member "childList", .item 2, .member "tags", .item 2], "string"⟩,
          ⟨[.member "labels", .member "byFlag", .member "maybe"], "bool => string"⟩] := by
  have hkeys : Specimen.sink.fields.Unambiguous := by decide +kernel
  have hordered : mixedDocument.Ordered := by decide +kernel
  refine ⟨hkeys, hordered, fun path expected => ?_⟩
  obtain ⟨-, -, hreports, -⟩ := clean_removes_exactly hkeys hordered
  rw [← hreports]
  exact iff_of_eq (congrArg (Mistyped.mk path expected ∈ ·) (by decide +kernel))

end Message

end LayeredConfig
