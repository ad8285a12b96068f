import LayeredConfig.Schema.TypeText

/-!
# Schemas

A schema declares enums and messages in an order that generated code keeps.
The types of the fields are resolved: enums are known with their values, and
messages by their names.
-/

namespace LayeredConfig

/-- The lines of a documentation text, without white space at their ends. -/
def docLines (doc : String) : List String :=
  (Text.stringLines doc).map Text.trimEndString

structure EnumDecl where
  type : EnumType
  doc : String
deriving DecidableEq

structure FieldDecl where
  name : String
  type : FieldType
  doc : String
deriving DecidableEq

structure MessageDecl where
  name : String
  doc : String
  fields : List FieldDecl
deriving DecidableEq

structure Schema where
  enums : List EnumDecl
  messages : List MessageDecl
deriving DecidableEq

namespace FieldType

def reference? : FieldType → Option String
  | plain _ => none
  | message name => some name
  | messageList name => some name

end FieldType

namespace MessageDecl

def references (m : MessageDecl) : List String :=
  m.fields.filterMap fun field => field.type.reference?

end MessageDecl

namespace Schema

def message? (schema : Schema) (name : String) : Option MessageDecl :=
  schema.messages.find? fun m => m.name = name

def references (messages : List MessageDecl) (name : String) : List String :=
  ((messages.find? fun m => m.name = name).map MessageDecl.references).getD []

end Schema

end LayeredConfig
