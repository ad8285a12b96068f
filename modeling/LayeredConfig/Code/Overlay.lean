import LayeredConfig.Code.Record

/-!
# Generated overlays

A message gets a table that describes its fields, and a routine that fills its
unset fields from the environment and from defaults, field after field.
-/

namespace LayeredConfig.Code

def scalarEntry (runtime : String) (s : Scalar) : String :=
  runtime ++ "::overlay::ValueType::" ++
    match s with
    | .string => "String"
    | .bool => "Bool"
    | .int32 => "Int32"

def typeEntry (runtime : String) : ValueType → List Piece
  | .scalar s => [.code (scalarEntry runtime s)]
  | .enum e =>
    [.code (runtime ++ "::overlay::ValueType::Enum \x7b name: "), .literal e.name,
     .code (", values: " ++ e.name ++ "::NAMES \x7d")]

/-- A name of the runtime for a message's overlay. -/
def overlayOf (runtime name : String) : String :=
  "<" ++ name ++ " as " ++ runtime ++ "::overlay::Overlay>"

def kindEntry (runtime : String) : FieldType → List Piece
  | .plain (.leaf type) =>
    [.code (runtime ++ "::overlay::FieldKind::Leaf(")] ++ typeEntry runtime type ++ [.code ")"]
  | .plain (.list type) =>
    [.code (runtime ++ "::overlay::FieldKind::List(")] ++ typeEntry runtime type ++ [.code ")"]
  | .plain (.map key value) =>
    [.code (runtime ++ "::overlay::FieldKind::Map \x7b key: " ++ scalarEntry runtime key ++
      ", value: " ++ scalarEntry runtime value ++ " \x7d")]
  | .message name =>
    [.code (runtime ++ "::overlay::FieldKind::Nested(&" ++ overlayOf runtime name ++ "::META)")]
  | .messageList name =>
    [.code (runtime ++ "::overlay::FieldKind::NestedList(&" ++ overlayOf runtime name ++ "::META)")]

def docEntry (doc : String) : List Piece :=
  [.code "&["] ++ literals (docLines doc) ++ [.code "]"]

def tableLine (name : String) (value : List Piece) : Step :=
  .pieces ([.code (name ++ ": ")] ++ value ++ [.code ","])

def fieldEntry (runtime : String) (field : FieldDecl) : List Step :=
  [.block (runtime ++ "::overlay::Field \x7b"),
   tableLine "name" [.literal field.name],
   tableLine "public_name" [.literal (Name.toPublic field.name)],
   tableLine "env_suffix" [.literal (Name.toEnvSuffix field.name)],
   tableLine "doc" (docEntry field.doc),
   tableLine "kind" (kindEntry runtime field.type),
   .close "\x7d,"]

def fieldEntries (runtime : String) (fields : List FieldDecl) : List Step :=
  if fields.isEmpty then [.text "fields: &[],"]
  else [.block "fields: &["] ++ fields.flatMap (fieldEntry runtime) ++ [.close "],"]

def table (runtime : String) (decl : MessageDecl) : List Step :=
  [.block ("const META: " ++ runtime ++ "::overlay::Meta = " ++ runtime ++ "::overlay::Meta \x7b"),
   tableLine "name" [.literal decl.name],
   tableLine "doc" (docEntry decl.doc)] ++
  fieldEntries runtime decl.fields ++
  [.close "\x7d;"]

/-- An expression for the name of a variable, given what follows the stem. -/
def variableName (rest : String) : List Piece :=
  [.code "&format!(", .literal ("\x7bprefix\x7d" ++ rest), .code ")"]

def readValue (name : List Piece) : ValueType → List Piece
  | .scalar .string => [.code "env.get_string("] ++ name ++ [.code ")"]
  | .scalar .bool => [.code "env.get_bool("] ++ name ++ [.code ")"]
  | .scalar .int32 => [.code "env.get_int32("] ++ name ++ [.code ")"]
  | .enum e => [.code "env.get_enum("] ++ name ++ [.code (", " ++ e.name ++ "::from_str_name)")]

def readList (runtime : String) (name : List Piece) : ValueType → List Piece
  | .scalar .string => [.code "env.get_string_list("] ++ name ++ [.code ")"]
  | .scalar .bool =>
    [.code "env.get_list("] ++ name ++ [.code (", " ++ runtime ++ "::env::parse_bool)")]
  | .scalar .int32 =>
    [.code "env.get_list("] ++ name ++ [.code (", " ++ runtime ++ "::env::parse_int32)")]
  | .enum e => [.code "env.get_list("] ++ name ++ [.code (", " ++ e.name ++ "::from_str_name)")]

def fillLeaf (identifier : String) (name : List Piece) (type : ValueType) : List Step :=
  let isString := type = .scalar .string
  let default :=
    if isString then "defaults.and_then(|d| d." ++ identifier ++ ".as_ref())"
    else "defaults.and_then(|d| d." ++ identifier ++ ")"
  let copy := if isString then "value.clone()" else "value"
  [.block ("if self." ++ identifier ++ ".is_none() \x7b"),
   .blockOf ([.code "if let Some(value) = "] ++ readValue name type ++ [.code " \x7b"]),
   .text ("self." ++ identifier ++ " = Some(value);"),
   .close ("\x7d else if let Some(value) = " ++ default ++ " \x7b"),
   .deeper,
   .text ("self." ++ identifier ++ " = Some(" ++ copy ++ ");"),
   .closeBrace,
   .closeBrace]

def fillList (runtime identifier : String) (name : List Piece) (type : ValueType) :
    List Step :=
  [.block ("if self." ++ identifier ++ ".is_empty() \x7b"),
   .blockOf ([.code "if let Some(values) = "] ++ readList runtime name type ++
     [.code " \x7b"]),
   .text ("self." ++ identifier ++ " = values;"),
   .close "\x7d else if let Some(d) = defaults \x7b",
   .deeper,
   .text ("self." ++ identifier ++ " = d." ++ identifier ++ ".clone();"),
   .closeBrace,
   .closeBrace]

def fillField (runtime : String) (field : FieldDecl) : List Step :=
  let identifier := Name.toIdentifier field.name
  let suffix := Name.toEnvSuffix field.name
  match field.type with
  | .plain (.leaf type) => fillLeaf identifier (variableName suffix) type
  | .plain (.list type) => fillList runtime identifier (variableName suffix) type
  | .plain (.map _ _) =>
    [.block "if let Some(d) = defaults \x7b",
     .text ("self.put_" ++ field.name ++ "(&d." ++ identifier ++ ");"),
     .closeBrace]
  | .message name =>
    [.block (overlayOf runtime name ++ "::overlay("),
     .text ("self." ++ identifier ++ ".get_or_insert_with(Default::default),"),
     .text "env,",
     .pieces (variableName (suffix ++ "_") ++ [.code ","]),
     .text ("defaults.and_then(|d| d." ++ identifier ++ ".as_ref()),"),
     .close ");"]
  | .messageList _ =>
    [.block ("if self." ++ identifier ++ ".is_empty()"),
     .text "&& let Some(d) = defaults",
     .close "\x7b",
     .deeper,
     .text ("self." ++ identifier ++ " = d." ++ identifier ++ ".clone();"),
     .closeBrace]

def readsEnvironment : FieldType → Bool
  | .plain (.leaf _) | .plain (.list _) | .message _ => true
  | .plain (.map _ _) | .messageList _ => false

/-- A parameter's name, with an underscore in front if it is not used. -/
def parameter (used : Bool) (name : String) : String :=
  if used then name else "_" ++ name

def routine (runtime : String) (decl : MessageDecl) : List Step :=
  let usesEnv := decl.fields.any fun field => readsEnvironment field.type
  [.block ("fn overlay(&mut self, " ++ parameter usesEnv "env" ++ ": &" ++ runtime ++
     "::env::Env, " ++ parameter usesEnv "prefix" ++ ": &str, " ++
     parameter (!decl.fields.isEmpty) "defaults" ++ ": Option<&Self>) \x7b")] ++
  spaced (decl.fields.map (fillField runtime)) ++
  [.closeBrace]

def overlay (runtime : String) (decl : MessageDecl) : List Step :=
  [.block ("impl " ++ runtime ++ "::overlay::Overlay for " ++ decl.name ++ " \x7b")] ++
  table runtime decl ++ [.gap] ++ routine runtime decl ++
  [.closeBrace]

end LayeredConfig.Code
