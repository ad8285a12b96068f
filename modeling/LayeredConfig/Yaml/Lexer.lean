import LayeredConfig.Yaml.Block
import LayeredConfig.Yaml.Tag

/-!
# From characters to tokens

The lexer keeps the columns of the open blocks and turns changes of indentation
into start and end tokens.  A key of a mapping is only known as such when its
colon is reached, so tokens may turn out to belong before an earlier one: they
are put in front of it (`Lexer.emitAt`), and its number stays the same.
-/

namespace LayeredConfig.Yaml

/-- A place where a key of a mapping may have begun. -/
structure KeyStart where
  possible : Bool := false
  /-- The key begins a line of the enclosing block, so it has to be one. -/
  required : Bool := false
  /-- The number of its first token. -/
  token : Nat := 0
  offset : Nat := 0
  line : Nat := 0
  column : Nat := 0
deriving Inhabited

/-- The greatest number of bytes from the beginning of a key to its colon. -/
def keyLimit : Nat := 1024

def KeyStart.isStale (k : KeyStart) (c : Cursor) : Bool :=
  k.possible && (k.line < c.line || k.offset + keyLimit < c.offset)

structure Lexer where
  cursor : Cursor
  /-- More than the number of characters of the text. -/
  limit : Nat
  /-- The tokens so far, newest first, each behind those that were put in front
  of it. -/
  tokens : List (List Token) := []
  /-- The number of tokens, without those that were put in front of others. -/
  count : Nat := 0
  /-- The column of the innermost block, -1 outside of all blocks. -/
  indent : Int := -1
  /-- The columns of the blocks around it. -/
  outer : List Int := []
  /-- Whether a key may begin here. -/
  keyAllowed : Bool := true
  /-- The possible key of each flow collection around this place, innermost
  first, and last that of the block. -/
  keys : List KeyStart := [{}]
deriving Inhabited

namespace Lexer

def inFlow (l : Lexer) : Bool := !(l.keys.drop 1).isEmpty

def emit (l : Lexer) (t : Token) : Lexer :=
  { l with tokens := [t] :: l.tokens, count := l.count + 1 }

/-- Puts tokens in front of the one with number `n`. -/
def emitAt (l : Lexer) (n : Nat) (ts : List Token) : Lexer :=
  { l with tokens := l.tokens.modify (l.count - 1 - n) (ts ++ ·) }

def closeBlocks (l : Lexer) (column : Int) : Lexer :=
  if l.inFlow then l
  else
    let rec go (l : Lexer) : List Int → Lexer
      | [] => { l with outer := [] }
      | next :: outer =>
        if column < l.indent then go { l.emit .blockEnd with indent := next } outer
        else { l with outer := next :: outer }
    go l l.outer

/-- Opens a block at `column` if that is right of the innermost one. -/
def openBlock (l : Lexer) (column : Nat) : Lexer × Bool :=
  if !l.inFlow && l.indent < column then
    ({ l with indent := column, outer := l.indent :: l.outer }, true)
  else (l, false)

/-- Gives up possible keys that are on an earlier line or too far back.  Giving
up a required one is an error. -/
def dropStaleKeys (l : Lexer) : Option Lexer :=
  let stale := l.keys.filter fun k => k.isStale l.cursor
  if stale.isEmpty then some l
  else if stale.any (·.required) then none
  else
    some { l with keys := l.keys.map fun k =>
      if k.isStale l.cursor then { k with possible := false } else k }

def dropKey (l : Lexer) : Option Lexer :=
  match l.keys with
  | [] => some l
  | k :: keys =>
    if k.possible && k.required then none
    else some { l with keys := { k with possible := false } :: keys }

def noteKey (l : Lexer) : Option Lexer :=
  if l.keyAllowed then do
    let required := !l.inFlow && l.indent == l.cursor.column
    let l ← l.dropKey
    let c := l.cursor
    some { l with keys := ⟨true, required, l.count, c.offset, c.line, c.column⟩ :: l.keys.drop 1 }
  else some l

/-- Passes blanks, comments and breaks.  A byte-order mark at the start of a line
is passed as well, and takes a column.  Tabs are passed only where no key may
begin.  In block context a new line may begin a key. -/
def skipToToken : Nat → Lexer → Lexer
  | 0, l => l
  | fuel + 1, l =>
    let c := l.cursor
    let c := if c.column = 0 && c.nextIs (·.toNat == 0xFEFF) then c.skip 1 else c
    let c := c.dropWhile fun ch => ch == ' ' || ((l.inFlow || !l.keyAllowed) && ch == '\t')
    let c := c.skipComment
    if c.nextIs isBreak then
      skipToToken fuel { l with cursor := c.skipBreak, keyAllowed := l.keyAllowed || !l.inFlow }
    else { l with cursor := c }

def emitHere (l : Lexer) (n : Nat) (t : Token) : Lexer :=
  { l.emit t with cursor := l.cursor.skip n }

def marker (l : Lexer) (t : Token) : Option Lexer := do
  let l ← (l.closeBlocks (-1)).dropKey
  some ({ l with keyAllowed := false }.emitHere 3 t)

def directive (l : Lexer) : Option Lexer := do
  let l ← (l.closeBlocks (-1)).dropKey
  let (t, c) ← readDirective l.cursor
  some { l.emit t with cursor := c, keyAllowed := false }

def openFlow (l : Lexer) (t : Token) : Option Lexer := do
  let l ← l.noteKey
  some ({ l with keys := {} :: l.keys, keyAllowed := true }.emitHere 1 t)

def closeFlow (l : Lexer) (t : Token) : Option Lexer := do
  let l ← l.dropKey
  let keys := if l.inFlow then l.keys.drop 1 else l.keys
  some ({ l with keys, keyAllowed := false }.emitHere 1 t)

def flowComma (l : Lexer) : Option Lexer := do
  let l ← l.dropKey
  some ({ l with keyAllowed := true }.emitHere 1 .flowEntry)

def blockDash (l : Lexer) : Option Lexer := do
  if !l.inFlow && !l.keyAllowed then none
  else
    let (l, opened) := l.openBlock l.cursor.column
    let l := if opened then l.emit .blockSequenceStart else l
    let l ← l.dropKey
    some ({ l with keyAllowed := true }.emitHere 1 .blockEntry)

def keyMark (l : Lexer) : Option Lexer := do
  if !l.inFlow && !l.keyAllowed then none
  else
    let (l, opened) := l.openBlock l.cursor.column
    let l := if opened then l.emit .blockMappingStart else l
    let l ← l.dropKey
    some ({ l with keyAllowed := !l.inFlow }.emitHere 1 .key)

/-- A colon before a value.  If a key may have begun before it, it did. -/
def valueMark (l : Lexer) : Option Lexer :=
  match l.keys with
  | [] => none
  | k :: keys =>
    if k.possible then
      let (l, opened) := l.openBlock k.column
      let l := l.emitAt k.token (if opened then [.blockMappingStart, .key] else [.key])
      let keys := { k with possible := false } :: keys
      some ({ l with keys, keyAllowed := false }.emitHere 1 .value)
    else if !l.inFlow && !l.keyAllowed then none
    else
      let (l, opened) := l.openBlock l.cursor.column
      let l := if opened then l.emit .blockMappingStart else l
      some ({ l with keyAllowed := !l.inFlow }.emitHere 1 .value)

/-- An anchor or an alias.  Its name must be followed by a blank, a break, the
end or an indicator that cannot begin a name. -/
def anchorName (l : Lexer) (t : List Char → Token) : Option Lexer := do
  let l ← l.noteKey
  let (name, c) := (l.cursor.skip 1).takeWhile isNameChar
  if name.isEmpty || !(c.blankOrEndAt 0 || c.nextIs "?:,]\x7d%@`".toList.contains) then none
  else some { l.emit (t name) with cursor := c, keyAllowed := false }

def tag (l : Lexer) : Option Lexer := do
  let l ← l.noteKey
  let (name, c) ← readTag l.inFlow l.cursor
  some { l.emit (.tag name) with cursor := c, keyAllowed := false }

def blockScalar (l : Lexer) (literal : Bool) : Option Lexer := do
  let l ← l.dropKey
  let (text, c) ← readBlock literal l.indent l.limit l.cursor
  some { l.emit (.scalar text false) with cursor := c, keyAllowed := true }

def quotedScalar (l : Lexer) (single : Bool) : Option Lexer := do
  let l ← l.noteKey
  let (text, c) ← readQuoted single l.limit l.cursor
  some { l.emit (.scalar text false) with cursor := c, keyAllowed := false }

def plainScalar (l : Lexer) : Option Lexer := do
  let l ← l.noteKey
  let (text, broken, c) ← readPlain l.inFlow (l.indent + 1).toNat l.limit l.cursor
  some { l.emit (.scalar text true) with cursor := c, keyAllowed := broken }

/-- Characters that cannot begin a plain scalar. -/
def isIndicator (c : Char) : Bool :=
  "-?:,[]\x7b\x7d#&*!|>'\"%@`".toList.contains c

def beginsPlain (l : Lexer) : Bool :=
  let c := l.cursor
  !(c.blankOrEndAt 0 || c.nextIs isIndicator) ||
  (c.nextIs (· == '-') && !(c.rest[1]?).any isBlank) ||
  (!l.inFlow && c.nextIs (fun ch => ch == '?' || ch == ':') && !c.blankOrEndAt 1)

def endStream (l : Lexer) : Option Lexer := do
  let c := l.cursor
  let c := if c.column = 0 then c else { c with line := c.line + 1, column := 0 }
  let l ← ({ l with cursor := c }.closeBlocks (-1)).dropKey
  some ({ l with keyAllowed := false }.emit .streamEnd)

/-- Reads one token, with the block tokens that come before it. -/
def readToken (l : Lexer) : Option Lexer :=
  let c := l.cursor
  match c.head? with
  | none => l.endStream
  | some ch =>
    if c.column = 0 && ch = '%' then l.directive
    else if c.atMarker '-' then l.marker .documentStart
    else if c.atMarker '.' then l.marker .documentEnd
    else if ch = '[' then l.openFlow .flowSequenceStart
    else if ch = '\x7b' then l.openFlow .flowMappingStart
    else if ch = ']' then l.closeFlow .flowSequenceEnd
    else if ch = '\x7d' then l.closeFlow .flowMappingEnd
    else if ch = ',' then l.flowComma
    else if ch = '-' && c.blankOrEndAt 1 then l.blockDash
    else if ch = '?' && (l.inFlow || c.blankOrEndAt 1) then l.keyMark
    else if ch = ':' && (l.inFlow || c.blankOrEndAt 1) then l.valueMark
    else if ch = '*' then l.anchorName .reference
    else if ch = '&' then l.anchorName .anchor
    else if ch = '!' then l.tag
    else if ch = '|' && !l.inFlow then l.blockScalar true
    else if ch = '>' && !l.inFlow then l.blockScalar false
    else if ch = '\'' then l.quotedScalar true
    else if ch = '"' then l.quotedScalar false
    else if l.beginsPlain then l.plainScalar
    else none

def run : Nat → Lexer → Option Lexer
  | 0, _ => none
  | fuel + 1, l => do
    let l ← (l.skipToToken l.limit).dropStaleKeys
    let l := l.closeBlocks l.cursor.column
    let l ← l.readToken
    if l.tokens.head? = some [.streamEnd] then some l else run fuel l

end Lexer

def isAllowed (c : Char) : Bool :=
  let n := c.toNat
  n == 0x09 || n == 0x0A || n == 0x0D || (0x20 ≤ n && n ≤ 0x7E) || n == 0x85 ||
  (0xA0 ≤ n && n ≤ 0xD7FF) || (0xE000 ≤ n && n ≤ 0xFFFD) || 0x10000 ≤ n

def tokens? (text : List Char) : Option (List Token) := do
  if text.all isAllowed then
    let limit := text.length + 2
    let l ← Lexer.run limit { cursor := Cursor.start text, limit }
    some l.tokens.reverse.flatten
  else none

end LayeredConfig.Yaml
