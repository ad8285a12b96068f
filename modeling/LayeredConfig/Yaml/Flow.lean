import LayeredConfig.Yaml.Cursor

/-!
# Plain and quoted scalars

Scalars that may continue over several lines.  Where a line ends, the break and
the blanks around it are folded: one break becomes a space, further breaks stay.
-/

namespace LayeredConfig.Yaml

/-- What lies between two runs of characters of a scalar. -/
structure Gap where
  /-- A line break was passed or escaped. -/
  broken : Bool := false
  /-- Blanks before the first break, newest first. -/
  blanks : List Char := []
  firstBreak : List Char := []
  /-- The breaks after the first, newest first. -/
  laterBreaks : List Char := []

namespace Gap

def folded (g : Gap) : List Char :=
  if g.broken then
    if g.firstBreak.head? = some '\n' then
      if g.laterBreaks.isEmpty then [' '] else g.laterBreaks
    else g.laterBreaks ++ g.firstBreak
  else g.blanks

/-- Passes blanks and breaks.  A tab left of column `tabLimit` after a break is
an error. -/
def read : Nat → Nat → Cursor → Gap → Option (Gap × Cursor)
  | 0, _, _, _ => none
  | fuel + 1, tabLimit, c, g =>
    match c.rest with
    | [] => some (g, c)
    | ch :: _ =>
      if isBlank ch then
        if g.broken then
          if ch = '\t' && c.column < tabLimit then none
          else read fuel tabLimit (c.skip 1) g
        else read fuel tabLimit (c.skip 1) { g with blanks := ch :: g.blanks }
      else if isBreak ch then
        let (b, c) := c.readBreak
        if g.broken then read fuel tabLimit c { g with laterBreaks := b ++ g.laterBreaks }
        else read fuel tabLimit c { g with broken := true, blanks := [], firstBreak := b }
      else some (g, c)

end Gap

def hexDigit? (c : Char) : Option Nat :=
  if c.isDigit then some (c.toNat - '0'.toNat)
  else if 'a' ≤ c && c ≤ 'f' then some (c.toNat - 'a'.toNat + 10)
  else if 'A' ≤ c && c ≤ 'F' then some (c.toNat - 'A'.toNat + 10)
  else none

def hexValue? (cs : List Char) : Option Nat :=
  cs.foldlM (fun n c => (hexDigit? c).map (n * 16 + ·)) 0

def simpleEscape? (c : Char) : Option Char :=
  match c with
  | '0' => some '\x00'
  | 'a' => some '\x07'
  | 'b' => some '\x08'
  | 't' => some '\t'
  | '\t' => some '\t'
  | 'n' => some '\n'
  | 'v' => some '\x0b'
  | 'f' => some '\x0c'
  | 'r' => some '\r'
  | 'e' => some '\x1b'
  | ' ' => some ' '
  | '"' => some '"'
  | '/' => some '/'
  | '\\' => some '\\'
  | 'N' => some (Char.ofNat 0x85)
  | '_' => some (Char.ofNat 0xA0)
  | 'L' => some (Char.ofNat 0x2028)
  | 'P' => some (Char.ofNat 0x2029)
  | _ => none

def escapeLength? (c : Char) : Option Nat :=
  match c with
  | 'x' => some 2
  | 'u' => some 4
  | 'U' => some 8
  | _ => none

/-- An escape in double quotes, the cursor at its backslash.  Code points that
are surrogates or too large are errors. -/
def readEscape (c : Cursor) : Option (Char × Cursor) := do
  let letter ← c.rest[1]?
  match simpleEscape? letter with
  | some e => some (e, c.skip 2)
  | none =>
    let length ← escapeLength? letter
    let ds := (c.rest.drop 2).take length
    if ds.length < length then none
    else
      let n ← hexValue? ds
      if (0xD800 ≤ n && n ≤ 0xDFFF) || 0x10FFFF < n then none
      else some (Char.ofNat n, c.skip (2 + length))

/-- A run of characters in quotes without blanks or breaks, newest first.  The
flag tells whether the run ended in an escaped line break. -/
def quotedRun (single : Bool) : Nat → Cursor → List Char → Option (List Char × Bool × Cursor)
  | 0, _, _ => none
  | fuel + 1, c, acc =>
    match c.rest with
    | [] => some (acc, false, c)
    | ch :: rest =>
      if isBlankOrBreak ch then some (acc, false, c)
      else if single && ch = '\'' && rest.head? = some '\'' then
        quotedRun single fuel (c.skip 2) ('\'' :: acc)
      else if ch = (if single then '\'' else '"') then some (acc, false, c)
      else if !single && ch = '\\' then
        if rest.head?.any isBreak then some (acc, true, (c.skip 1).skipBreak)
        else do
          let (e, c) ← readEscape c
          quotedRun single fuel c (e :: acc)
      else quotedRun single fuel (c.skip 1) (ch :: acc)

/-- The rest of a quoted scalar after its opening quote.  `limit` exceeds the
number of characters left. -/
def quotedRest (single : Bool) (limit : Nat) :
    Nat → Cursor → List Char → Option (List Char × Cursor)
  | 0, _, _ => none
  | fuel + 1, c, acc =>
    if c.atDocumentMarker || c.atEnd then none
    else do
      let (acc, escaped, c) ← quotedRun single limit c acc
      if c.nextIs (· == if single then '\'' else '"') then some (acc.reverse, c.skip 1)
      else
        let (gap, c) ← Gap.read limit 0 c { broken := escaped }
        quotedRest single limit fuel c (gap.folded ++ acc)

def readQuoted (single : Bool) (limit : Nat) (c : Cursor) : Option (List Char × Cursor) :=
  quotedRest single limit limit (c.skip 1) []

/-- The brackets and the comma of flow collections. -/
def isFlowIndicator (c : Char) : Bool :=
  c == ',' || c == '[' || c == ']' || c == '\x7b' || c == '\x7d'

/-- The characters of a plain scalar up to a blank, a break or the end of the
scalar.  In a flow collection a colon right before an indicator is an error. -/
def plainRun (flow : Bool) : List Char → Option (List Char)
  | [] => some []
  | ch :: rest =>
    if isBlankOrBreak ch then some []
    else if flow && ch = ':' && rest.head?.any (fun n => isFlowIndicator n || n = '?') then none
    else if ch = ':' && rest.head?.all isBlankOrBreak then some []
    else if flow && isFlowIndicator ch then some []
    else (plainRun flow rest).map (ch :: ·)

/-- The rest of a plain scalar, newest first.  Lines left of column `indent` do
not belong to it in block context.  The flag tells whether a line break was
passed after the last character. -/
def plainRest (flow : Bool) (indent limit : Nat) :
    Nat → Cursor → List Char → Gap → Option (List Char × Bool × Cursor)
  | 0, _, _, _ => none
  | fuel + 1, c, acc, gap =>
    if c.atDocumentMarker || c.nextIs (· == '#') then some (acc, gap.broken, c)
    else do
      let run ← plainRun flow c.rest
      let (acc, gap) := if run.isEmpty then (acc, gap) else (run.reverse ++ gap.folded ++ acc, {})
      let c := c.skip run.length
      if !c.nextIs isBlankOrBreak then some (acc, gap.broken, c)
      else
        let (gap, c) ← Gap.read limit indent c gap
        if !flow && c.column < indent then some (acc, gap.broken, c)
        else plainRest flow indent limit fuel c acc gap

/-- A plain scalar whose later lines start at column `indent` or further. -/
def readPlain (flow : Bool) (indent limit : Nat) (c : Cursor) :
    Option (List Char × Bool × Cursor) := do
  let (text, broken, c) ← plainRest flow indent limit limit c [] {}
  some (text.reverse, broken, c)

end LayeredConfig.Yaml
