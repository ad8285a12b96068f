import LayeredConfig.Code.Enum

/-!
# Generated records

A message becomes a record with a slot for every field, and methods that read
the fields: an unset single value reads as the zero of its type.  A map field
has a method that takes entries from outside as well.
-/

namespace LayeredConfig

def Scalar.codeType : Scalar → String
  | string => "String"
  | bool => "bool"
  | int32 => "i32"

def ValueType.codeType : ValueType → String
  | scalar s => s.codeType
  | enum e => e.name

namespace Code

def mapType : String := "::std::collections::BTreeMap"

def mapOf (key value : Scalar) : String :=
  mapType ++ "<" ++ key.codeType ++ ", " ++ value.codeType ++ ">"

def slotType : FieldType → String
  | .plain (.leaf type) => "Option<" ++ type.codeType ++ ">"
  | .plain (.list type) => "Vec<" ++ type.codeType ++ ">"
  | .plain (.map key value) => mapOf key value
  | .message name => "Option<" ++ name ++ ">"
  | .messageList name => "Vec<" ++ name ++ ">"

def unsetTest : FieldType → String
  | .plain (.leaf _) | .message _ => "Option::is_none"
  | .plain (.list _) | .messageList _ => "Vec::is_empty"
  | .plain (.map _ _) => mapType ++ "::is_empty"

/-- The attribute of a slot: the alternative key in documents, if there is one,
and when the slot is left out of them. -/
def slotAttribute (field : FieldDecl) : Step :=
  let camel := Name.toLowerCamel field.name
  let skip := [.code "skip_serializing_if = ", .literal (unsetTest field.type), .code ")]"]
  if camel = field.name then .pieces (.code "#[serde(" :: skip)
  else .pieces ([.code "#[serde(alias = ", .literal camel, .code ", "] ++ skip)

def slot (field : FieldDecl) : List Step :=
  docs field.doc ++
  [slotAttribute field,
   .text ("pub " ++ Name.toIdentifier field.name ++ ": " ++ slotType field.type ++ ",")]

def record (decl : MessageDecl) : List Step :=
  docs decl.doc ++
  [.text ("#[derive(Debug, Clone, Default, PartialEq, Eq, " ++
      "::serde::Serialize, ::serde::Deserialize)]"),
   .text "#[serde(default)]",
   .block ("pub struct " ++ decl.name ++ " \x7b")] ++
  decl.fields.flatMap slot ++
  [.closeBrace]

def copyOf (name : String) : Scalar → String
  | .string => name ++ ".clone()"
  | .bool | .int32 => "*" ++ name

def reader (doc identifier type : String) (body : List Piece) : List Step :=
  [.doc doc,
   .block ("pub fn " ++ identifier ++ "(&self) -> " ++ type ++ " \x7b"),
   .pieces body,
   .closeBrace]

def methods (field : FieldDecl) : List Step :=
  let identifier := Name.toIdentifier field.name
  let quoted := "`" ++ field.name ++ "`"
  let unsetDoc := "Returns " ++ quoted ++ "; empty when unset."
  match field.type with
  | .plain (.leaf (.scalar .string)) =>
    reader ("Returns " ++ quoted ++ ", or `\"\"` when unset.") identifier "&str"
      [.code ("self." ++ identifier ++ ".as_deref().unwrap_or("), .literal "", .code ")"]
  | .plain (.leaf (.scalar .bool)) =>
    reader ("Returns " ++ quoted ++ ", or `false` when unset.") identifier "bool"
      [.code ("self." ++ identifier ++ ".unwrap_or(false)")]
  | .plain (.leaf (.scalar .int32)) =>
    reader ("Returns " ++ quoted ++ ", or `0` when unset.") identifier "i32"
      [.code ("self." ++ identifier ++ ".unwrap_or(0)")]
  | .plain (.leaf (.enum type)) =>
    reader ("Returns " ++ quoted ++ ", or the first `" ++ type.name ++ "` value when unset.")
      identifier type.name [.code ("self." ++ identifier ++ ".unwrap_or_default()")]
  | .plain (.list type) =>
    reader unsetDoc identifier ("&[" ++ type.codeType ++ "]") [.code ("&self." ++ identifier)]
  | .message name =>
    reader ("Returns the " ++ quoted ++ " sub-message, if any.") identifier
      ("Option<&" ++ name ++ ">") [.code ("self." ++ identifier ++ ".as_ref()")]
  | .messageList name =>
    reader unsetDoc identifier ("&[" ++ name ++ "]") [.code ("&self." ++ identifier)]
  | .plain (.map key value) =>
    reader unsetDoc identifier ("&" ++ mapOf key value) [.code ("&self." ++ identifier)] ++
    [.gap,
     .doc ("Copies entries from `values` into " ++ quoted ++ " for keys not present yet."),
     .block ("pub fn put_" ++ field.name ++ "(&mut self, values: &" ++ mapOf key value ++ ") \x7b"),
     .block "for (key, value) in values \x7b",
     .text ("self." ++ identifier ++ ".entry(" ++ copyOf "key" key ++
       ").or_insert_with(|| " ++ copyOf "value" value ++ ");"),
     .closeBrace,
     .closeBrace]

/-- Groups of steps with a blank line between neighbours. -/
def spaced : List (List Step) → List Step
  | [] => []
  | [group] => group
  | group :: next :: groups => group ++ [.gap] ++ spaced (next :: groups)

def recordMethods (decl : MessageDecl) : List Step :=
  [.block ("impl " ++ decl.name ++ " \x7b")] ++
  spaced (decl.fields.map methods) ++
  [.closeBrace]

end Code

end LayeredConfig
