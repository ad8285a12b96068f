import LayeredConfig.Code.Line
import LayeredConfig.Schema.Basic

/-!
# Generated enums

An enum becomes a type with one variant per value, the table of the values'
names, and conversions between values and names in both directions.
-/

namespace LayeredConfig.Code

def docs (doc : String) : List Step :=
  (docLines doc).map Step.doc

/-- The variants of an enum, the first of them marked as the default. -/
def variants (values : List String) : List Step :=
  values.flatMap fun value =>
    [.pieces [.code "#[serde(rename = ", .literal value, .code ")]"],
     .text (Name.toVariant value ++ ",")]

def enumType (decl : EnumDecl) : List Step :=
  docs decl.doc ++
  [.text ("#[derive(Debug, Clone, Copy, Default, PartialEq, Eq, Hash, " ++
      "::serde::Serialize, ::serde::Deserialize)]"),
   .block ("pub enum " ++ decl.type.name ++ " \x7b"),
   .text "#[default]"] ++
  variants decl.type.names ++
  [.closeBrace]

/-- The names of an enum and the conversions. -/
def enumNames (decl : EnumDecl) : List Step :=
  let values := decl.type.names
  [.block ("impl " ++ decl.type.name ++ " \x7b"),
   .doc "Symbolic names in declaration order.",
   .pieces ([.code "pub const NAMES: &'static [&'static str] = &["] ++ literals values ++
     [.code "];"]),
   .gap,
   .doc "Symbolic name used in config files and env vars.",
   .block "pub fn as_str_name(&self) -> &'static str \x7b",
   .block "match self \x7b"] ++
  values.map (fun value =>
    .pieces [.code ("Self::" ++ Name.toVariant value ++ " => "), .literal value, .code ","]) ++
  [.closeBrace,
   .closeBrace,
   .gap,
   .doc "Parse a symbolic name. Unknown names yield `None`.",
   .block "pub fn from_str_name(value: &str) -> Option<Self> \x7b",
   .block "match value \x7b"] ++
  values.map (fun value =>
    .pieces [.literal value, .code (" => Some(Self::" ++ Name.toVariant value ++ "),")]) ++
  [.text "_ => None,",
   .closeBrace,
   .closeBrace,
   .closeBrace]

def enumDisplay (decl : EnumDecl) : List Step :=
  [.block ("impl ::std::fmt::Display for " ++ decl.type.name ++ " \x7b"),
   .block "fn fmt(&self, f: &mut ::std::fmt::Formatter<'_>) -> ::std::fmt::Result \x7b",
   .text "f.write_str(self.as_str_name())",
   .closeBrace,
   .closeBrace]

def enumCode (decl : EnumDecl) : List Step :=
  enumType decl ++ [.gap] ++ enumNames decl ++ [.gap] ++ enumDisplay decl

end LayeredConfig.Code
