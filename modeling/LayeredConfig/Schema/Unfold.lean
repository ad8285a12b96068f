import LayeredConfig.Schema.Basic

/-!
# The message types of a schema

The declarations of a schema refer to messages by name.  Unfolding puts the
fields of a message in the place of its name, all the way down.  Messages
without cycles nest no deeper than there are messages.
-/

namespace LayeredConfig

namespace Schema

/-- The fields of declarations, given the message type of every name. -/
def unfoldFields (message? : String → Option Message) : List FieldDecl → Option Fields
  | [] => some .nil
  | decl :: decls => do
    let label : Label := ⟨decl.name, docLines decl.doc⟩
    let rest ← unfoldFields message? decls
    match decl.type with
    | .plain kind => some (.plain label kind rest)
    | .message name =>
      let m ← message? name
      some (.nested label m.label m.fields rest)
    | .messageList name =>
      let m ← message? name
      some (.nestedList label m.label m.fields rest)

/-- The message type called `name`, whose messages nest at most `depth` deep. -/
def unfold (schema : Schema) : Nat → String → Option Message
  | 0, _ => none
  | depth + 1, name => do
    let decl ← schema.message? name
    let fields ← unfoldFields (schema.unfold depth) decl.fields
    some ⟨⟨decl.name, docLines decl.doc⟩, fields⟩

def messageType? (schema : Schema) (name : String) : Option Message :=
  schema.unfold schema.messages.length name

end Schema

end LayeredConfig
