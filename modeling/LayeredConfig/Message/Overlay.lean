import LayeredConfig.Message.Tree
import LayeredConfig.Environment

/-!
# Filling a tree

Filling gives a value to every setting of a tree that has none: from the
environment if a variable denotes one, otherwise from a tree of defaults.  What
is set stays.  The name of a variable is a stem, which grows by a suffix and an
underscore for every nested message on the way, and the suffix of the field.
Nested messages that are absent are created, so that their settings can be
filled; maps and lists of messages are filled from the defaults only.
-/

namespace LayeredConfig

namespace Kind

/-- Fills what a field holds, given the name of its variable and what the
defaults hold. -/
def fill (env : Environment) (name : String) :
    (kind : Kind) → Option kind.Slot → kind.Slot → kind.Slot
  | leaf type, defaults, slot => slot.or ((env.value? name type).or (defaults.getD none))
  | list type, defaults, slot =>
    if slot.isEmpty then (env.list? name type).getD (defaults.getD []) else slot
  | map _ _, defaults, slot =>
    match defaults with
    | some entries => slot.fillFrom entries
    | none => slot

end Kind

namespace Tree

def fill (env : Environment) :
    (fields : Fields) → String → Option (Tree fields) → Tree fields → Tree fields
  | .nil, _, _, tree => tree
  | .plain field kind rest, stem, defaults, (slot, tree) =>
    (kind.fill env (stem ++ field.envSuffix) (defaults.map (·.1)) slot,
      fill env rest stem (defaults.map (·.2)) tree)
  | .nested field _ sub rest, stem, defaults, (slot, tree) =>
    (some (fill env sub (stem ++ field.envSuffix ++ "_") (defaults.bind (·.1))
        (slot.getD (empty sub))),
      fill env rest stem (defaults.map (·.2)) tree)
  | .nestedList _ _ _ rest, stem, defaults, (slot, tree) =>
    (if slot.isEmpty then (defaults.map (·.1)).getD [] else slot,
      fill env rest stem (defaults.map (·.2)) tree)

/-- Fills a tree from variables whose names start with `stem`, then from
`defaults`. -/
def overlay {fields : Fields} (tree : Tree fields) (env : Environment) (stem : String)
    (defaults : Option (Tree fields)) : Tree fields :=
  fill env fields stem defaults tree

end Tree

end LayeredConfig
