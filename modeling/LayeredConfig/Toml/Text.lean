/-!
# TOML strings, keys and blanks

The four kinds of strings, the keys, and what may stand between the tokens of a
TOML text.  Every function takes the characters still to be read and gives back
those it left; one without an answer rejects the text.
-/

namespace LayeredConfig.Toml

/-- Space and tab. -/
def isBlank (c : Char) : Bool := c == ' ' || c == '\t'

def skipBlanks (cs : List Char) : List Char := cs.dropWhile isBlank

/-- Characters that may stand in comments and, as far as the quotes allow, in
strings: the tab and everything that is not a control character of ASCII. -/
def isTextChar (c : Char) : Bool := c == '\t' || (0x20 ≤ c.toNat && c.toNat != 0x7F)

def newLine? : List Char → Option (List Char)
  | '\n' :: cs => some cs
  | '\r' :: '\n' :: cs => some cs
  | _ => none

def skipComment : List Char → List Char
  | '#' :: cs => cs.dropWhile isTextChar
  | cs => cs

/-- The rest of a line after its content: blanks, a comment and its end. -/
def endLine? (cs : List Char) : Option (List Char) :=
  match skipComment (skipBlanks cs) with
  | [] => some []
  | cs => newLine? cs

/-- Blanks, comments and line ends inside an array. -/
def skipLines : Nat → List Char → Option (List Char)
  | 0, _ => none
  | fuel + 1, cs =>
    match skipBlanks cs with
    | '#' :: cs => do skipLines fuel (← newLine? (skipComment ('#' :: cs)))
    | cs =>
      match newLine? cs with
      | some cs => skipLines fuel cs
      | none => if cs.head? = some '\r' then none else some cs

def hexDigit? (c : Char) : Option Nat :=
  if c.isDigit then some (c.toNat - '0'.toNat)
  else if 'a' ≤ c && c ≤ 'f' then some (c.toNat - 'a'.toNat + 10)
  else if 'A' ≤ c && c ≤ 'F' then some (c.toNat - 'A'.toNat + 10)
  else none

/-- The character with `n` hexadecimal digits at the start of the text. -/
def codePoint? (n : Nat) (cs : List Char) : Option (Char × List Char) := do
  let ds := cs.take n
  if ds.length < n then none
  else
    let v ← ds.foldlM (fun v c => (hexDigit? c).map (v * 16 + ·)) 0
    if h : v.isValidChar then some (Char.ofNatAux v h, cs.drop n) else none

def escape? : List Char → Option (Char × List Char)
  | 'b' :: cs => some ('\x08', cs)
  | 'f' :: cs => some ('\x0c', cs)
  | 'n' :: cs => some ('\n', cs)
  | 'r' :: cs => some ('\r', cs)
  | 't' :: cs => some ('\t', cs)
  | '"' :: cs => some ('"', cs)
  | '\\' :: cs => some ('\\', cs)
  | 'u' :: cs => codePoint? 4 cs
  | 'U' :: cs => codePoint? 8 cs
  | _ => none

def basicRest : Nat → List Char → List Char → Option (String × List Char)
  | 0, _, _ => none
  | _, [], _ => none
  | fuel + 1, c :: cs, acc =>
    if c = '"' then some (String.ofList acc.reverse, cs)
    else if c = '\\' then do
      let (e, cs) ← escape? cs
      basicRest fuel cs (e :: acc)
    else if isTextChar c then basicRest fuel cs (c :: acc)
    else none

def literalRest : List Char → List Char → Option (String × List Char)
  | [], _ => none
  | c :: cs, acc =>
    if c = '\'' then some (String.ofList acc.reverse, cs)
    else if isTextChar c then literalRest cs (c :: acc)
    else none

/-- The text after an escaped line end: the blanks and empty lines that follow
do not belong to the string. -/
def afterEscapedLine? (cs : List Char) : Option (List Char) :=
  (newLine? (skipBlanks cs)).map fun cs =>
    let rec go : Nat → List Char → List Char
      | 0, cs => cs
      | fuel + 1, cs =>
        match newLine? (skipBlanks cs) with
        | some cs => go fuel cs
        | none => skipBlanks cs
    go cs.length cs

/-- The rest of a string of several lines.  One or two quotes in a row belong to
its text; three end it, and up to two more right before them belong to it. -/
def multiLineRest (quote : Char) (escapes : Bool) :
    Nat → List Char → List Char → Option (String × List Char)
  | 0, _, _ => none
  | _, [], _ => none
  | fuel + 1, c :: cs, acc =>
    if c = quote then
      let run := (c :: cs).takeWhile (· == quote)
      if run.length < 3 then
        multiLineRest quote escapes fuel ((c :: cs).drop run.length) (run ++ acc)
      else
        let inner := min (run.length - 3) 2
        some (String.ofList (List.replicate inner quote ++ acc).reverse, (c :: cs).drop (inner + 3))
    else if escapes && c = '\\' then
      match afterEscapedLine? cs with
      | some cs => multiLineRest quote escapes fuel cs acc
      | none => do
        let (e, cs) ← escape? cs
        multiLineRest quote escapes fuel cs (e :: acc)
    else if isTextChar c then multiLineRest quote escapes fuel cs (c :: acc)
    else do
      let cs ← newLine? (c :: cs)
      multiLineRest quote escapes fuel cs ('\n' :: acc)

/-- A string of several lines after its three quotes.  A line end right after
them does not belong to it. -/
def multiLine (quote : Char) (escapes : Bool) (cs : List Char) : Option (String × List Char) :=
  let cs := (newLine? cs).getD cs
  multiLineRest quote escapes (cs.length + 1) cs []

def string? : List Char → Option (String × List Char)
  | '"' :: '"' :: '"' :: cs => multiLine '"' true cs
  | '"' :: cs => basicRest (cs.length + 1) cs []
  | '\'' :: '\'' :: '\'' :: cs => multiLine '\'' false cs
  | '\'' :: cs => literalRest cs []
  | _ => none

def isBareKeyChar (c : Char) : Bool := c.isAlphanum || c == '-' || c == '_'

def keyPart? : List Char → Option (String × List Char)
  | '"' :: cs => basicRest (cs.length + 1) cs []
  | '\'' :: cs => literalRest cs []
  | cs =>
    let name := cs.takeWhile isBareKeyChar
    if name.isEmpty then none
    else some (String.ofList name, cs.dropWhile isBareKeyChar)

/-- The parts of a key, with blanks around them. -/
def keyParts : Nat → List Char → Option (List String × List Char)
  | 0, _ => none
  | fuel + 1, cs => do
    let (part, cs) ← keyPart? (skipBlanks cs)
    match skipBlanks cs with
    | '.' :: cs => do
      let (parts, cs) ← keyParts fuel cs
      some (part :: parts, cs)
    | cs => some ([part], cs)

/-- Keys have fewer parts than this, and arrays and inline tables fewer levels. -/
def depthLimit : Nat := 80

/-- A key: the path to the table it is in, and the name it has there. -/
def key? (cs : List Char) : Option (List String × String × List Char) := do
  let (parts, cs) ← keyParts depthLimit cs
  if depthLimit ≤ parts.length then none
  else
    let last ← parts.getLast?
    some (parts.dropLast, last, cs)

end LayeredConfig.Toml
