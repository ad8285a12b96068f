import LayeredConfig.Json.Basic

/-!
# Reading JSON text

The reader follows the JSON grammar strictly: no comments, no trailing commas,
no control characters in strings, no unpaired surrogate escapes, and nothing
but blanks after the document.  Arrays and objects nest at most 127 deep.  Of
several members with one key the last counts.

Every function takes the characters still to be read and gives back those it
left.  A reader without an answer rejects the text; the text of the rejection
is not part of this library.
-/

namespace LayeredConfig.Json.Reader

/-- Space, tab, line feed and carriage return. -/
def isBlank (c : Char) : Bool :=
  c == ' ' || c == '\n' || c == '\t' || c == '\r'

def skipBlanks (cs : List Char) : List Char :=
  cs.dropWhile isBlank

def digitValue (c : Char) : Nat := c.toNat - '0'.toNat

def hexValue? (c : Char) : Option Nat :=
  if c.isDigit then some (digitValue c)
  else if 'a' ≤ c && c ≤ 'f' then some (c.toNat - 'a'.toNat + 10)
  else if 'A' ≤ c && c ≤ 'F' then some (c.toNat - 'A'.toNat + 10)
  else none

def hexQuad : List Char → Option (Nat × List Char)
  | a :: b :: c :: d :: cs => do
    let a ← hexValue? a
    let b ← hexValue? b
    let c ← hexValue? c
    let d ← hexValue? d
    some (((a * 16 + b) * 16 + c) * 16 + d, cs)
  | _ => none

def isHighSurrogate (n : Nat) : Bool := 0xD800 ≤ n && n < 0xDC00

def isLowSurrogate (n : Nat) : Bool := 0xDC00 ≤ n && n < 0xE000

/-- The character of an escape, after the backslash.  A high surrogate must be
followed by the escape of a low one. -/
def escape : List Char → Option (Char × List Char)
  | '"' :: cs => some ('"', cs)
  | '\\' :: cs => some ('\\', cs)
  | '/' :: cs => some ('/', cs)
  | 'b' :: cs => some ('\x08', cs)
  | 'f' :: cs => some ('\x0c', cs)
  | 'n' :: cs => some ('\n', cs)
  | 'r' :: cs => some ('\r', cs)
  | 't' :: cs => some ('\t', cs)
  | 'u' :: cs => do
    let (n, cs) ← hexQuad cs
    if isLowSurrogate n then none
    else if isHighSurrogate n then
      match cs with
      | '\\' :: 'u' :: cs => do
        let (low, cs) ← hexQuad cs
        if isLowSurrogate low then
          some (Char.ofNat (0x10000 + (n - 0xD800) * 0x400 + (low - 0xDC00)), cs)
        else none
      | _ => none
    else some (Char.ofNat n, cs)
  | _ => none

/-- The rest of a string after its opening quote.  `fuel` bounds the number of
characters read. -/
def stringRest : Nat → List Char → List Char → Option (String × List Char)
  | 0, _, _ => none
  | _, [], _ => none
  | fuel + 1, c :: cs, acc =>
    if c = '"' then some (String.ofList acc.reverse, cs)
    else if c = '\\' then do
      let (e, cs) ← escape cs
      stringRest fuel cs (e :: acc)
    else if c.toNat < 0x20 then none
    else stringRest fuel cs (c :: acc)

def digits (cs : List Char) : List Char × List Char :=
  (cs.takeWhile Char.isDigit, cs.dropWhile Char.isDigit)

/-- The greatest significand that is accumulated. -/
def significandLimit : Nat := twoTo 64 - 1

/-- Accumulates digits into a significand while it fits 64 bits.  Gives the
significand, the number of digits taken, and the digits left over. -/
def accumulate (significand : Nat) : List Char → Nat × Nat × List Char
  | [] => (significand, 0, [])
  | d :: ds =>
    let next := significand * 10 + digitValue d
    if significandLimit < next then (significand, 0, d :: ds)
    else
      let (s, count, rest) := accumulate next ds
      (s, count + 1, rest)

/-- The decimal `significand * 10 ^ exponent`, reached by rounding three times
at most: the significand, the power of ten, and their product or quotient.
Exponents below -308 are reached by dividing by the largest power first; two
such steps take every 64-bit significand to zero. -/
def scale (significand : Nat) (exponent : Int) : Option Binary64 := do
  let largest ← Binary64.ofNat (tenTo 308)
  let rec go : Nat → Binary64 → Int → Option Binary64
    | 0, x, _ => some x
    | steps + 1, x, e =>
      if e.natAbs ≤ 308 then do
        let power ← Binary64.ofNat (tenTo e.natAbs)
        if 0 ≤ e then x.mul power else x.div power
      else if x.isZero then some x
      else if 0 ≤ e then none
      else do go steps (← x.div largest) (e + 308)
  go 4 (← Binary64.ofNat significand) exponent

/-- The float with a sign and the given decimal parts, if it is finite. -/
def floatNumber (negative : Bool) (significand : Nat) (exponent : Int) : Option Number := do
  let x ← scale significand exponent
  some (.float (if negative then x.neg else x))

/-- The greatest explicit exponent that is not cut off. -/
def exponentLimit : Nat := twoTo 31 - 1

/-- The smallest and largest exponents; sums beyond them stay at the bound. -/
def clampExponent (e : Int) : Int := max (-(twoTo 31 : Int)) (min ((twoTo 31 : Int) - 1) e)

/-- An exponent after its `e`: an optional sign and at least one digit. -/
def exponentPart (negative : Bool) (significand : Nat) (exponent : Int) (cs : List Char) :
    Option (Number × List Char) := do
  let (minus, cs) := match cs with
    | '+' :: cs => (false, cs)
    | '-' :: cs => (true, cs)
    | cs => (false, cs)
  let (ds, cs) := digits cs
  if ds.isEmpty then none
  else
    let e := ds.foldl (fun n d => n * 10 + digitValue d) 0
    if exponentLimit < e then
      if significand != 0 && !minus then none
      else some (.float (.zero negative), cs)
    else
      let e := clampExponent (if minus then exponent - e else exponent + e)
      some (← floatNumber negative significand e, cs)

/-- The fraction and exponent of a number whose integer digits gave
`significand` and `exponent`. -/
def fractionPart (negative : Bool) (significand : Nat) (exponent : Int) :
    List Char → Option (Number × List Char)
  | '.' :: cs => do
    let (ds, cs) := digits cs
    if ds.isEmpty then none
    else
      let (significand, count, _) := accumulate significand ds
      let exponent := exponent - count
      match cs with
      | 'e' :: cs | 'E' :: cs => exponentPart negative significand exponent cs
      | cs => some (← floatNumber negative significand exponent, cs)
  | 'e' :: cs | 'E' :: cs => exponentPart negative significand exponent cs
  | cs => do some (← floatNumber negative significand exponent, cs)

def continuesNumber : List Char → Bool
  | c :: _ => c == '.' || c == 'e' || c == 'E'
  | [] => false

/-- A number after its sign.  A leading zero stands alone.  Negative zero and
integers beyond 64 bits are floats. -/
def unsignedNumber (negative : Bool) (cs : List Char) : Option (Number × List Char) :=
  let (ds, rest) := digits cs
  match ds with
  | [] => none
  | '0' :: _ :: _ => none
  | ds =>
    let (significand, _, dropped) := accumulate 0 ds
    if dropped.isEmpty && !continuesNumber rest then
      if !negative then some (.int significand, rest)
      else if significand = 0 then some (.float (.zero true), rest)
      else if significand ≤ twoTo 63 then some (.int (-significand), rest)
      else do some (← floatNumber true significand 0, rest)
    else fractionPart negative significand dropped.length rest

def number : List Char → Option (Number × List Char)
  | '-' :: cs => unsignedNumber true cs
  | cs => unsignedNumber false cs

def word (word : String) (cs : List Char) : Option (List Char) :=
  if word.toList.isPrefixOf cs then some (cs.drop word.length) else none

mutual

/-- A document.  `depth` counts the levels of arrays and objects still
allowed, `fuel` bounds the number of steps. -/
def value : Nat → Nat → List Char → Option (Json × List Char)
  | 0, _, _ => none
  | fuel + 1, depth, cs =>
    match skipBlanks cs with
    | 'n' :: rest => do some (.null, ← word "ull" rest)
    | 't' :: rest => do some (.bool true, ← word "rue" rest)
    | 'f' :: rest => do some (.bool false, ← word "alse" rest)
    | '"' :: rest => do
      let (s, rest) ← stringRest (rest.length + 1) rest []
      some (.string s, rest)
    | '[' :: rest =>
      match depth with
      | 0 => none
      | depth + 1 =>
        match skipBlanks rest with
        | ']' :: rest => some (.array [], rest)
        | rest => do
          let (items, rest) ← items fuel depth rest []
          some (.array items, rest)
    | '\x7b' :: rest =>
      match depth with
      | 0 => none
      | depth + 1 =>
        match skipBlanks rest with
        | '\x7d' :: rest => some (.object [], rest)
        | rest => do
          let (members, rest) ← members fuel depth rest []
          some (.object members, rest)
    | cs => do
      let (n, rest) ← number cs
      some (.number n, rest)

def items : Nat → Nat → List Char → List Json → Option (List Json × List Char)
  | 0, _, _, _ => none
  | fuel + 1, depth, cs, acc => do
    let (item, rest) ← value fuel depth cs
    match skipBlanks rest with
    | ',' :: rest => items fuel depth rest (item :: acc)
    | ']' :: rest => some ((item :: acc).reverse, rest)
    | _ => none

def members : Nat → Nat → List Char → Members → Option (Members × List Char)
  | 0, _, _, _ => none
  | fuel + 1, depth, cs, acc =>
    match skipBlanks cs with
    | '"' :: rest => do
      let (key, rest) ← stringRest (rest.length + 1) rest []
      match skipBlanks rest with
      | ':' :: rest => do
        let (item, rest) ← value fuel depth rest
        let acc := Assoc.insert key item acc
        match skipBlanks rest with
        | ',' :: rest => members fuel depth rest acc
        | '\x7d' :: rest => some (acc, rest)
        | _ => none
      | _ => none
    | _ => none

end

def depthLimit : Nat := 127

/-- The document with at most `depth` levels written by the whole of `cs`. -/
def document (depth : Nat) (cs : List Char) : Option Json := do
  let (json, rest) ← value (cs.length + 1) depth cs
  if (skipBlanks rest).isEmpty then some json else none

end LayeredConfig.Json.Reader

namespace LayeredConfig.Json

def parse? (text : String) : Option Json :=
  Reader.document Reader.depthLimit text.toList

end LayeredConfig.Json
