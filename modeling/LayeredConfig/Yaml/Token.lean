/-!
# YAML tokens

The lexical units between the characters of a YAML text and its nodes.  The
indentation of a text is turned into explicit start and end tokens here, so
nothing after this stage counts columns.
-/

namespace LayeredConfig.Yaml

/-- A tag as written: a handle declared for the document and a suffix.  A
verbatim tag has no handle, and neither has the lone `!`.  Escapes in a suffix
stand for bytes. -/
structure TagName where
  handle : List Char
  suffix : List UInt8
deriving DecidableEq, Inhabited

inductive Token where
  | version (major minor : Nat)
  | tagHandle (handle : List Char) (expansion : List UInt8)
  | documentStart
  | documentEnd
  | streamEnd
  | blockSequenceStart
  | blockMappingStart
  | blockEnd
  | flowSequenceStart
  | flowSequenceEnd
  | flowMappingStart
  | flowMappingEnd
  | blockEntry
  | flowEntry
  | key
  | value
  | reference (name : List Char)
  | anchor (name : List Char)
  | tag (name : TagName)
  | scalar (text : List Char) (plain : Bool)
deriving DecidableEq, Inhabited

end LayeredConfig.Yaml
