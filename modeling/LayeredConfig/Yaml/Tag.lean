import LayeredConfig.Yaml.Flow
import LayeredConfig.Yaml.Token

/-!
# Tags and directives

Tags name the type of a node.  A tag is verbatim (`!<…>`), or a handle followed
by a suffix; handles other than `!` and `!!` are declared by `%TAG` directives.
-/

namespace LayeredConfig.Yaml

/-- A character of a tag's suffix.  Commas and brackets are allowed in verbatim
tags and directives only. -/
def isUriChar (verbatim : Bool) (c : Char) : Bool :=
  isNameChar c || ";/?:@&=+$.!~*'()%".toList.contains c ||
  (verbatim && (c == ',' || c == '[' || c == ']'))

/-- The number of bytes of a UTF-8 sequence by its first byte. -/
def utf8Width? (b : Nat) : Option Nat :=
  if b < 0x80 then some 1
  else if b / 0x20 = 0x6 then some 2
  else if b / 0x10 = 0xE then some 3
  else if b / 0x8 = 0x1E then some 4
  else none

def uriByte (cs : List Char) : Option (Nat × List Char) :=
  match cs with
  | '%' :: a :: b :: rest => (hexValue? [a, b]).map (·, rest)
  | _ => none

def uriTrailing : Nat → List Char → Option (List UInt8 × List Char)
  | 0, cs => some ([], cs)
  | n + 1, cs => do
    let (b, cs) ← uriByte cs
    if b / 0x40 = 2 then
      let (bs, cs) ← uriTrailing n cs
      some (UInt8.ofNat b :: bs, cs)
    else none

/-- An escaped character: as many escaped bytes as its first one announces. -/
def uriEscape (cs : List Char) : Option (List UInt8 × List Char) := do
  let (b, cs) ← uriByte cs
  let width ← utf8Width? b
  let (bs, cs) ← uriTrailing (width - 1) cs
  some (UInt8.ofNat b :: bs, cs)

/-- The bytes of a suffix, which may be empty, and the number of characters
that were read. -/
def uriBytes (verbatim : Bool) : Nat → List Char → Option (List UInt8 × Nat)
  | 0, _ => none
  | _, [] => some ([], 0)
  | fuel + 1, c :: cs =>
    if !isUriChar verbatim c then some ([], 0)
    else if c = '%' then do
      let (bs, rest) ← uriEscape (c :: cs)
      let (more, n) ← uriBytes verbatim fuel rest
      some (bs ++ more, 3 * bs.length + n)
    else do
      let (more, n) ← uriBytes verbatim fuel cs
      some (UInt8.ofNat c.toNat :: more, n + 1)

def readUri (verbatim : Bool) (c : Cursor) : Option (List UInt8 × Cursor) := do
  let (bytes, n) ← uriBytes verbatim (c.rest.length + 1) c.rest
  some (bytes, c.skip n)

/-- The part of a suffix or an expansion that counts: a byte of value zero ends
it. -/
def untilZero (bytes : List UInt8) : List UInt8 := bytes.takeWhile (· != 0)

def asciiBytes (cs : List Char) : List UInt8 := cs.map fun c => UInt8.ofNat c.toNat

/-- A `!`, name characters, and a second `!` if there is one. -/
def readHandle (c : Cursor) : Option (List Char × Cursor) :=
  if !c.nextIs (· == '!') then none
  else
    let (name, c) := (c.skip 1).takeWhile isNameChar
    if c.nextIs (· == '!') then some ('!' :: name ++ ['!'], c.skip 1)
    else some ('!' :: name, c)

/-- A tag, the cursor at its `!`.  It must be followed by a blank, a break or
the end, or by a comma in a flow collection. -/
def readTag (flow : Bool) (c : Cursor) : Option (TagName × Cursor) := do
  let (name, c) ←
    if c.rest[1]? = some '<' then do
      let (suffix, c) ← readUri true (c.skip 2)
      if suffix.isEmpty || !c.nextIs (· == '>') then none
      else some (⟨[], untilZero suffix⟩, c.skip 1)
    else do
      let (handle, c) ← readHandle c
      if 1 < handle.length && handle.getLast? = some '!' then
        let (suffix, c) ← readUri false c
        if suffix.isEmpty then none else some (⟨handle, untilZero suffix⟩, c)
      else
        let (bytes, c) ← readUri false c
        let suffix := untilZero (asciiBytes (handle.drop 1) ++ bytes)
        if suffix.isEmpty then some (⟨[], asciiBytes ['!']⟩, c) else some (⟨['!'], suffix⟩, c)
  if (flow && c.nextIs (· == ',')) || c.blankOrEndAt 0 then some (name, c) else none

def readVersionNumber (c : Cursor) : Option (Nat × Cursor) :=
  let (ds, c) := c.takeWhile Char.isDigit
  if ds.isEmpty || 9 < ds.length then none
  else some (ds.foldl (fun n d => n * 10 + (d.toNat - '0'.toNat)) 0, c)

/-- A directive with the rest of its line, the cursor at its `%`.  Only `%YAML`
and `%TAG` are known. -/
def readDirective (c : Cursor) : Option (Token × Cursor) := do
  let (name, c) := (c.skip 1).takeWhile isNameChar
  if name.isEmpty || !c.blankOrEndAt 0 then none
  else
    let c := c.dropWhile isBlank
    let (token, c) ←
      if name = "YAML".toList then do
        let (major, c) ← readVersionNumber c
        if !c.nextIs (· == '.') then none
        else
          let (minor, c) ← readVersionNumber (c.skip 1)
          some (.version major minor, c)
      else if name = "TAG".toList then do
        let (handle, c) ← readHandle c
        if (1 < handle.length && handle.getLast? != some '!') || !c.nextIs isBlank then none
        else
          let (expansion, c) ← readUri true (c.dropWhile isBlank)
          if expansion.isEmpty || !c.blankOrEndAt 0 then none
          else some (.tagHandle handle (untilZero expansion), c)
      else none
    let c := (c.dropWhile isBlank).skipComment
    if c.atEnd || c.nextIs isBreak then some (token, c.skipBreak) else none

end LayeredConfig.Yaml
