import LayeredConfig.Schema.Basic

/-!
# Cycles between messages

A message must not contain itself, neither directly nor through other messages
and lists.  The references are followed depth first from every message in
declaration order; the first one that leads back to a message under way closes
a cycle.
-/

namespace LayeredConfig.Schema

/-- Follows the references of `name` while the messages of `trail` are under
way.  Gives the messages that are done, `name` among them, or the first cycle,
which begins and ends with one name.  `fuel` bounds the length of the trail. -/
def visit (references : String → List String) :
    Nat → List String → List String → String → Except (List String) (List String)
  | 0, _, done, _ => .ok done
  | fuel + 1, trail, done, name =>
    if done.contains name then .ok done
    else if trail.contains name then
      .error (trail.dropWhile (fun n => n != name) ++ [name])
    else do
      let done ← (references name).foldlM (visit references fuel (trail ++ [name])) done
      .ok (name :: done)

/-- The first cycle among messages.  A trail has no name twice, so it is never
longer than the list of messages. -/
def cycle? (messages : List MessageDecl) : Option (List String) :=
  let follow := visit (references messages) (messages.length + 1) []
  match (messages.map fun m => m.name).foldlM follow [] with
  | .ok _ => none
  | .error names => some names

end LayeredConfig.Schema
