import LayeredConfig.Json.Path
import LayeredConfig.Proofs.Json.Trim

/-!
# Documents without some of their parts

`Json.without gone` takes out of a document every item and every member whose path
is in `gone`, at any depth, and leaves everything else as it is and in its order.
Paths are those of the document as it was.  `Json.keep?` is the same for a part that
may itself be in `gone`.
-/

namespace LayeredConfig.Json

mutual

/-- The document without the parts at the paths in `gone`. -/
def without (gone : Path → Bool) : Json → Json
  | array items => array (withoutItems gone 0 items)
  | object members => object (withoutMembers gone members)
  | json => json

def withoutItems (gone : Path → Bool) : Nat → List Json → List Json
  | _, [] => []
  | index, item :: items =>
    let rest := withoutItems gone (index + 1) items
    if gone [.item index] then rest
    else without (fun path => gone (.item index :: path)) item :: rest

def withoutMembers (gone : Path → Bool) : Members → Members
  | [] => []
  | (key, value) :: members =>
    let rest := withoutMembers gone members
    if gone [.member key] then rest
    else (key, without (fun path => gone (.member key :: path)) value) :: rest

end

/-- What is left of a part without the parts in `gone`, if it is not one of them. -/
def keep? (gone : Path → Bool) (json : Json) : Option Json :=
  if gone [] then none else some (json.without gone)

variable {gone : Path → Bool}

theorem withoutItems_eq_filterMap (index : Nat) (items : List Json) :
    withoutItems gone index items = (items.zipIdx index).filterMap fun e =>
      e.1.keep? fun path => gone (.item e.2 :: path) := by
  induction items generalizing index with
  | nil => rfl
  | cons item items ih =>
    rw [withoutItems, List.zipIdx_cons, List.filterMap_cons, ih, keep?]
    split <;> rfl

theorem withoutMembers_eq_filterMap (members : Members) :
    withoutMembers gone members = members.filterMap fun m =>
      (m.2.keep? fun path => gone (.member m.1 :: path)).map (m.1, ·) := by
  induction members with
  | nil => rfl
  | cons m members ih =>
    obtain ⟨key, value⟩ := m
    rw [withoutMembers, List.filterMap_cons, ih, keep?]
    split <;> rfl

theorem without_eq_self {json : Json} (h : ∀ path, gone path = false) :
    json.without gone = json := by
  induction json using Json.induction generalizing gone with
  | null | bool | number | string => rfl
  | array items ih =>
    have hitems : ∀ index, withoutItems gone index items = items := by
      induction items with
      | nil => exact fun _ => rfl
      | cons item items ihitems =>
        intro index
        obtain ⟨hitem, hitems⟩ := List.forall_mem_cons.1 ih
        rw [withoutItems, h, if_neg Bool.false_ne_true, hitem fun path => h _,
          ihitems hitems (index + 1)]
    rw [without, hitems]
  | object members ih =>
    have hmembers : withoutMembers gone members = members := by
      induction members with
      | nil => rfl
      | cons m members ihmembers =>
        obtain ⟨hm, hmembers⟩ := List.forall_mem_cons.1 ih
        rw [withoutMembers, h, if_neg Bool.false_ne_true, hm fun path => h _, ihmembers hmembers]
    rw [without, hmembers]

theorem keep?_eq_some_self {json : Json} (h : ∀ path, gone path = false) :
    json.keep? gone = some json := by
  rw [keep?, h, if_neg Bool.false_ne_true, without_eq_self h]

theorem keep?_eq_none {json : Json} (h : gone [] = true) : json.keep? gone = none := if_pos h

theorem keep?_eq_some {json : Json} (h : gone [] = false) :
    json.keep? gone = some (json.without gone) := if_neg (by rw [h]; exact Bool.false_ne_true)

end LayeredConfig.Json
