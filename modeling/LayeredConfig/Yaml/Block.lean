import LayeredConfig.Yaml.Cursor

/-!
# Literal and folded block scalars

A block scalar is the indented text below its header.  Its indentation is
declared in the header or taken from the first line that is not empty.  The
header also says what happens to the breaks at the end: one is kept, none, or
all of them.
-/

namespace LayeredConfig.Yaml

/-- What becomes of the breaks at the end of a block scalar. -/
inductive Chomping where
  | clip
  | strip
  | keep
deriving DecidableEq

structure BlockHeader where
  chomping : Chomping
  increment : Option Nat

def readChomping (c : Cursor) : Option (Chomping × Cursor) :=
  match c.head? with
  | some '+' => some (.keep, c.skip 1)
  | some '-' => some (.strip, c.skip 1)
  | _ => none

/-- The indentation indicator, if there is one.  Zero is an error. -/
def readIncrement (c : Cursor) : Option (Option Nat × Cursor) :=
  match c.head? with
  | some d =>
    if d = '0' then none
    else if d.isDigit then some (some (d.toNat - '0'.toNat), c.skip 1)
    else some (none, c)
  | none => some (none, c)

/-- The two indicators, in either order, the cursor after the `|` or `>`. -/
def readBlockHeader (c : Cursor) : Option (BlockHeader × Cursor) :=
  match readChomping c with
  | some (chomping, c) => do
    let (increment, c) ← readIncrement c
    some (⟨chomping, increment⟩, c)
  | none => do
    let (increment, c) ← readIncrement c
    match increment, readChomping c with
    | some n, some (chomping, c) => some (⟨chomping, some n⟩, c)
    | increment, _ => some (⟨.clip, increment⟩, c)

/-- Passes indentation and empty lines, whose breaks are given newest first.
While the indentation `indent` is not known, it is zero and `widest` records the
widest line start so far.  A tab in the indentation is an error. -/
def blockBreaks : Nat → Nat → Cursor → Nat → List Char → Option (Nat × List Char × Cursor)
  | 0, _, _, _, _ => none
  | fuel + 1, indent, c, widest, breaks =>
    let spaces := (c.rest.takeWhile (· == ' ')).length
    let c := c.skip (if indent = 0 then spaces else min spaces (indent - c.column))
    let widest := max widest c.column
    if (indent = 0 || c.column < indent) && c.nextIs (· == '\t') then none
    else if c.nextIs isBreak then
      let (b, c) := c.readBreak
      blockBreaks fuel indent c widest (b ++ breaks)
    else some (widest, breaks, c)

/-- The state between two lines of a block scalar: the text so far, the break
that ended the last line, the breaks of empty lines after it, and whether the
last line began with a blank.  Text and breaks are listed newest first. -/
structure BlockLines where
  text : List Char := []
  lastBreak : List Char := []
  emptyBreaks : List Char := []
  afterBlank : Bool := false

def blockLines (literal : Bool) (indent limit : Nat) :
    Nat → Cursor → BlockLines → Option (BlockLines × Cursor)
  | 0, _, _ => none
  | fuel + 1, c, s =>
    if c.column = indent && !c.atEnd then do
      let blank := c.nextIs isBlank
      let joint :=
        if !literal && s.lastBreak.head? = some '\n' && !s.afterBlank && !blank then
          if s.emptyBreaks.isEmpty then [' '] else []
        else s.lastBreak
      let (line, c) := c.takeWhile (fun ch => !isBreak ch)
      let (b, c) := c.readBreak
      let (_, breaks, c) ← blockBreaks limit indent c 0 []
      blockLines literal indent limit fuel c
        { text := line.reverse ++ s.emptyBreaks ++ joint ++ s.text
          lastBreak := b
          emptyBreaks := breaks
          afterBlank := blank }
    else some (s, c)

/-- A block scalar, the cursor at its indicator.  `parent` is the column of the
enclosing block, -1 outside of all blocks. -/
def readBlock (literal : Bool) (parent : Int) (limit : Nat) (c : Cursor) :
    Option (List Char × Cursor) := do
  let (header, c) ← readBlockHeader (c.skip 1)
  let c := (c.dropWhile isBlank).skipComment
  if !(c.atEnd || c.nextIs isBreak) then none
  else
    let c := c.skipBreak
    let declared := match header.increment with
      | some n => (if 0 ≤ parent then parent.toNat + n else n)
      | none => 0
    let (widest, breaks, c) ← blockBreaks limit declared c 0 []
    let indent := if declared = 0 then max (max widest (parent + 1).toNat) 1 else declared
    let (lines, c) ← blockLines literal indent limit limit c { emptyBreaks := breaks }
    let tail := match header.chomping with
      | .strip => []
      | .clip => lines.lastBreak
      | .keep => lines.emptyBreaks ++ lines.lastBreak
    some ((tail ++ lines.text).reverse, c)

end LayeredConfig.Yaml
