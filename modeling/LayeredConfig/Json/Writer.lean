import LayeredConfig.Json.Basic
import LayeredConfig.Number.Text

/-!
# Writing JSON text

Two layouts: compact, with no blanks at all, and pretty, with one item or
member per line and two spaces per level.  Empty arrays and objects are closed
at once in both.  Members are written in the order the document lists them.
-/

namespace LayeredConfig.Json

def hexDigit (n : Nat) : Char :=
  if n < 10 then Char.ofNat ('0'.toNat + n) else Char.ofNat ('a'.toNat + n - 10)

/-- The written form of a character inside a string: quotes, backslashes and
controls are escaped and everything else stands for itself. -/
def escapeChar (c : Char) : List Char :=
  if c = '"' then ['\\', '"']
  else if c = '\\' then ['\\', '\\']
  else if c = '\x08' then ['\\', 'b']
  else if c = '\x0c' then ['\\', 'f']
  else if c = '\n' then ['\\', 'n']
  else if c = '\r' then ['\\', 'r']
  else if c = '\t' then ['\\', 't']
  else if c.toNat < 0x20 then
    ['\\', 'u', '0', '0', hexDigit (c.toNat / 16), hexDigit (c.toNat % 16)]
  else [c]

def writeString (s : String) : List Char :=
  '"' :: s.toList.flatMap escapeChar ++ ['"']

def Number.write : Number → List Char
  | .int n => (toString n).toList
  | .float x => x.text.toList

def writeBool (b : Bool) : List Char :=
  if b then ['t', 'r', 'u', 'e'] else ['f', 'a', 'l', 's', 'e']

mutual

def compact : Json → List Char
  | null => ['n', 'u', 'l', 'l']
  | bool b => writeBool b
  | number n => n.write
  | string s => writeString s
  | array items => '[' :: compactItems items ++ [']']
  | object members => '\x7b' :: compactMembers members ++ ['\x7d']

def compactItems : List Json → List Char
  | [] => []
  | [item] => compact item
  | item :: next :: items => compact item ++ ',' :: compactItems (next :: items)

def compactMembers : Members → List Char
  | [] => []
  | [(key, value)] => writeString key ++ ':' :: compact value
  | (key, value) :: next :: members =>
    writeString key ++ ':' :: compact value ++ ',' :: compactMembers (next :: members)

end

/-- A line break and the blanks of a level. -/
def newLine (level : Nat) : List Char :=
  '\n' :: List.replicate (2 * level) ' '

mutual

/-- The pretty layout of a document whose first line is at `level`. -/
def pretty (level : Nat) : Json → List Char
  | null => ['n', 'u', 'l', 'l']
  | bool b => writeBool b
  | number n => n.write
  | string s => writeString s
  | array [] => ['[', ']']
  | array (item :: items) =>
    '[' :: prettyItems (level + 1) (item :: items) ++ newLine level ++ [']']
  | object [] => ['\x7b', '\x7d']
  | object (member :: members) =>
    '\x7b' :: prettyMembers (level + 1) (member :: members) ++ newLine level ++ ['\x7d']

def prettyItems (level : Nat) : List Json → List Char
  | [] => []
  | [item] => newLine level ++ pretty level item
  | item :: next :: items =>
    newLine level ++ pretty level item ++ ',' :: prettyItems level (next :: items)

def prettyMembers (level : Nat) : Members → List Char
  | [] => []
  | [(key, value)] => newLine level ++ writeString key ++ ':' :: ' ' :: pretty level value
  | (key, value) :: next :: members =>
    newLine level ++ writeString key ++ ':' :: ' ' :: pretty level value ++
      ',' :: prettyMembers level (next :: members)

end

def compactText (json : Json) : String := String.ofList json.compact

def prettyText (json : Json) : String := String.ofList (json.pretty 0)

end LayeredConfig.Json
