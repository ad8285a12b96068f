import LayeredConfig.Text.Split

/-!
# Names and their spellings

A name of the schema appears in several spellings: the public name in camel
case, the suffix of an environment variable, the alternative key in config
files, and the identifiers of generated code.  All spellings are computed from
the characters of the name and treat ASCII letters only.
-/

namespace LayeredConfig.Name

open LayeredConfig.Text

/-- The non-empty parts of a name between underscores. -/
def segments (name : List Char) : List (List Char) :=
  (split '_' name).filter fun s => !s.isEmpty

def capitalize : List Char → List Char
  | [] => []
  | c :: cs => c.toUpper :: cs

/-- Segments that are written in capitals in public names. -/
def acronyms : List (List Char) := [['h', 't', 't', 'p'], ['r', 'p', 'c']]

def publicSegment (s : List Char) : List Char :=
  if acronyms.contains (s.map Char.toLower) then s.map Char.toUpper else capitalize s

/-- The public name: the segments in camel case, acronyms in capitals. -/
def publicName (name : List Char) : List Char :=
  (segments name).flatMap publicSegment

/-- `envSuffix` after the character `previous`. -/
def envSuffixAfter (previous : Option Char) : List Char → List Char
  | [] => []
  | c :: cs =>
    let boundary := c.isUpper && previous.any fun p => p.isLower || p.isDigit
    (if boundary then ['_', c.toUpper] else [c.toUpper]) ++ envSuffixAfter (some c) cs

/-- The suffix in names of environment variables: the name in capitals, with an
underscore where a capital follows a small letter or a digit. -/
def envSuffix (name : List Char) : List Char :=
  envSuffixAfter none name

def lowerCamel (name : List Char) : List Char :=
  match segments name with
  | [] => []
  | s :: rest => s ++ rest.flatMap capitalize

/-- Words of the generated language that are no plain identifiers. -/
def reservedWords : List String :=
  ["abstract", "as", "async", "await", "become", "box", "break", "const", "continue", "do",
   "dyn", "else", "enum", "extern", "false", "final", "fn", "for", "gen", "if", "impl", "in",
   "let", "loop", "macro", "match", "mod", "move", "mut", "override", "priv", "pub", "ref",
   "return", "static", "struct", "trait", "true", "try", "type", "typeof", "unsafe", "unsized",
   "use", "virtual", "where", "while", "yield"]

/-- Type names that generated code uses for something else. -/
def reservedTypes : List String :=
  ["Self", "Option", "Some", "None", "Result", "Ok", "Err", "String", "Vec", "Box", "Default",
   "Clone", "Copy", "Send", "Sync", "Sized", "Drop", "From", "Into", "TryFrom", "TryInto",
   "Iterator", "IntoIterator", "ToString", "ToOwned", "PartialEq", "Eq", "PartialOrd", "Ord",
   "AsRef", "AsMut"]

/-- Words that name a place in the generated language and cannot be escaped. -/
def placeWords : List String := ["self", "super", "crate"]

/-- Whether the first character satisfies `first` and the others `other`. -/
def hasShape (first other : Char → Bool) : List Char → Bool
  | [] => false
  | c :: cs => first c && cs.all other

theorem hasShape_iff {first other : Char → Bool} {text : List Char} :
    hasShape first other text = true ↔ ∃ c cs, text = c :: cs ∧ first c = true ∧
      ∀ d ∈ cs, other d = true := by
  cases text with
  | nil => simp [hasShape]
  | cons c cs =>
    rw [hasShape, Bool.and_eq_true, List.all_eq_true]
    constructor
    · exact fun h => ⟨c, cs, rfl, h⟩
    · rintro ⟨_, _, heq, h⟩
      cases heq
      exact h

/-- Names of fields: small letters, digits and underscores after a small letter. -/
def isFieldName (name : String) : Bool :=
  hasShape Char.isLower (fun c => c.isLower || c.isDigit || c == '_') name.toList &&
    !placeWords.contains name

/-- Names of types: letters and digits after a capital, no reserved type. -/
def isTypeName (name : String) : Bool :=
  hasShape Char.isUpper Char.isAlphanum name.toList && !reservedTypes.contains name

/-- Names of enum values: capitals, digits and underscores after a capital. -/
def isEnumValueName (name : String) : Bool :=
  hasShape Char.isUpper (fun c => c.isUpper || c.isDigit || c == '_') name.toList

def toPublic (name : String) : String := String.ofList (publicName name.toList)

def toEnvSuffix (name : String) : String := String.ofList (envSuffix name.toList)

def toLowerCamel (name : String) : String := String.ofList (lowerCamel name.toList)

/-- The name as an identifier; reserved words are escaped. -/
def toIdentifier (name : String) : String :=
  if reservedWords.contains name then "r#" ++ name else name

def toVariant (value : String) : String :=
  String.ofList (publicName (value.toList.map Char.toLower))

end LayeredConfig.Name
