import LayeredConfig.Json.Basic
import LayeredConfig.Text.Split

/-!
# Places in a document

A path leads from the root of a document to one of its parts: to the member at
a key of an object, or to the item at an index of an array.  A path that reading
takes also has a mark where it enters a value that might have been null; the mark
leads nowhere.  Paths have two texts.  `Path.text` writes an index in brackets;
`Path.dotted` writes it like a key, and takes the marks out of the written text.
-/

namespace LayeredConfig.Json

/-- One step into a document. -/
inductive Step where
  | member (key : String)
  | item (index : Nat)
  /-- The value is there and not null. -/
  | present
deriving DecidableEq, Inhabited

abbrev Path := List Step

def at? : Path → Json → Option Json
  | [], json => some json
  | .member key :: path, json => (json.get? key).bind (at? path)
  | .item index :: path, array items => (items[index]?).bind (at? path)
  | .item _ :: _, _ => none
  | .present :: path, json => at? path json

namespace Step

def piece : Step → String
  | member key => key
  | item index => toString index
  | present => "?"

end Step

namespace Path

/-- `text` after the text `before` of the steps so far. -/
def textAfter (before : String) : Path → String
  | [] => before
  | .member key :: path => textAfter (if before = "" then key else before ++ "." ++ key) path
  | .item index :: path => textAfter (before ++ "[" ++ toString index ++ "]") path
  | .present :: path => textAfter before path

/-- Keys with dots between them and indexes in brackets: `a.b[0].c`. -/
def text (path : Path) : String :=
  textAfter "" path

/-- Keys and indexes with dots between them: `a.b.0.c`.  The marks are written as
question marks, and every piece between dots that is a lone question mark is left
out again. -/
def dotted (path : Path) : String :=
  let pieces := Text.splitString '.' (".".intercalate (path.map Step.piece))
  ".".intercalate (pieces.filter fun piece => piece != "?")

end Path

end LayeredConfig.Json
