import LayeredConfig.Json.Basic

/-!
# Deep merge

Merging lays one object over another.  Where both hold an object at a key the
two are merged; everywhere else the member of the upper object replaces the
one below.  Arrays are replaced as a whole.
-/

namespace LayeredConfig.Json

mutual

def mergeValue (base : Json) : Json → Json
  | object overlay =>
    match base with
    | object members => object (mergeMembers members overlay)
    | _ => object overlay
  | overlay => overlay

def mergeMembers (base : Members) : Members → Members
  | [] => base
  | (key, value) :: overlay =>
    let merged := match Assoc.find? key base with
      | some below => mergeValue below value
      | none => value
    mergeMembers (Assoc.insert key merged base) overlay

end

end LayeredConfig.Json
