/-!
# Positions in a YAML text

A cursor is the text still to be read together with the place it starts at.
Indentation makes columns part of YAML's syntax, and keys are limited to one
line and to a number of bytes, so the line, the column and the bytes of UTF-8
passed are tracked with every step.
-/

namespace LayeredConfig.Yaml

/-- The line breaks of YAML 1.1: carriage return, line feed, next line, line
separator and paragraph separator. -/
def isBreak (c : Char) : Bool :=
  c == '\r' || c == '\n' || c.toNat == 0x85 || c.toNat == 0x2028 || c.toNat == 0x2029

def isBlank (c : Char) : Bool := c == ' ' || c == '\t'

def isBlankOrBreak (c : Char) : Bool := isBlank c || isBreak c

/-- A character of names: an ASCII letter, a digit, `_` or `-`. -/
def isNameChar (c : Char) : Bool := c.isAlphanum || c == '_' || c == '-'

def byteCount (cs : List Char) : Nat := cs.foldl (fun n c => n + c.utf8Size) 0

structure Cursor where
  rest : List Char
  /-- The bytes before the rest. -/
  offset : Nat
  line : Nat
  column : Nat
deriving Inhabited

namespace Cursor

def start (text : List Char) : Cursor := ⟨text, 0, 0, 0⟩

def head? (c : Cursor) : Option Char := c.rest.head?

def atEnd (c : Cursor) : Bool := c.rest.isEmpty

def nextIs (c : Cursor) (p : Char → Bool) : Bool := c.rest.head?.any p

/-- Whether the character `n` places ahead is a blank, a break or missing. -/
def blankOrEndAt (c : Cursor) (n : Nat) : Bool := (c.rest[n]?).all isBlankOrBreak

/-- Passes `n` characters of the current line. -/
def skip (c : Cursor) (n : Nat) : Cursor :=
  ⟨c.rest.drop n, c.offset + byteCount (c.rest.take n), c.line, c.column + n⟩

/-- The characters satisfying `p`, none of them a break, and the cursor after
them. -/
def takeWhile (c : Cursor) (p : Char → Bool) : List Char × Cursor :=
  let taken := c.rest.takeWhile p
  (taken, c.skip taken.length)

def dropWhile (c : Cursor) (p : Char → Bool) : Cursor := (c.takeWhile p).2

/-- Passes a line break.  Gives the break as it counts in a scalar: every break
is a line feed there, except the two separators. -/
def readBreak (c : Cursor) : List Char × Cursor :=
  match c.rest with
  | '\r' :: '\n' :: rest => (['\n'], ⟨rest, c.offset + 2, c.line + 1, 0⟩)
  | b :: rest =>
    let next : Cursor := ⟨rest, c.offset + b.utf8Size, c.line + 1, 0⟩
    if b = '\r' || b = '\n' || b.toNat = 0x85 then (['\n'], next)
    else if isBreak b then ([b], next)
    else ([], c)
  | [] => ([], c)

def skipBreak (c : Cursor) : Cursor := c.readBreak.2

def skipComment (c : Cursor) : Cursor :=
  if c.nextIs (· == '#') then c.dropWhile (fun ch => !isBreak ch) else c

/-- Three times `mark` at the start of a line, followed by a blank, a break or
the end. -/
def atMarker (c : Cursor) (mark : Char) : Bool :=
  c.column == 0 && c.rest.take 3 == [mark, mark, mark] && c.blankOrEndAt 3

def atDocumentMarker (c : Cursor) : Bool := c.atMarker '-' || c.atMarker '.'

end Cursor

end LayeredConfig.Yaml
