import LayeredConfig.Number.Binary64

/-!
# TOML numbers, booleans and times

These values are only checked: each function gives back the text after the
longest value it accepts.  Underscores may stand between digits, integers have
64 bits, floats must not be beyond the positive finite ones, and dates must
exist.
-/

namespace LayeredConfig.Toml

/-- Digits satisfying `p` with single underscores between them, and the rest.
There is at least one digit. -/
def digitRun (p : Char → Bool) : Nat → List Char → Option (List Char × List Char)
  | 0, _ => none
  | fuel + 1, cs =>
    let ds := cs.takeWhile p
    if ds.isEmpty then none
    else match cs.dropWhile p with
      | '_' :: rest => do
        let (more, rest) ← digitRun p fuel rest
        some (ds ++ more, rest)
      | rest => some (ds, rest)

def digits? (p : Char → Bool) (cs : List Char) : Option (List Char × List Char) :=
  digitRun p (cs.length + 1) cs

/-- The value of digits in a base; letters count from ten. -/
def digitsValue (base : Nat) (ds : List Char) : Nat :=
  ds.foldl (fun n c =>
    n * base + (if c.isDigit then c.toNat - '0'.toNat else c.toLower.toNat - 'a'.toNat + 10)) 0

def sign (cs : List Char) : Bool × List Char :=
  match cs with
  | '+' :: rest => (false, rest)
  | '-' :: rest => (true, rest)
  | _ => (false, cs)

/-- A decimal integer: zero alone, or digits that do not begin with it. -/
def decimalInteger? (cs : List Char) : Option (Bool × List Char × List Char) :=
  let (negative, cs) := sign cs
  match cs with
  | '0' :: rest => some (negative, ['0'], rest)
  | _ => (digits? Char.isDigit cs).map fun (ds, rest) => (negative, ds, rest)

def isHexDigit (c : Char) : Bool :=
  c.isDigit || ('a' ≤ c && c ≤ 'f') || ('A' ≤ c && c ≤ 'F')

/-- The text after an integer of 64 bits. -/
def integer? (cs : List Char) : Option (List Char) :=
  let based (base : Nat) (p : Char → Bool) (cs : List Char) : Option (List Char) := do
    let (ds, rest) ← digits? p cs
    if digitsValue base ds < twoTo 63 then some rest else none
  match cs with
  | '0' :: 'x' :: rest => based 16 isHexDigit rest
  | '0' :: 'o' :: rest => based 8 (fun c => '0' ≤ c && c ≤ '7') rest
  | '0' :: 'b' :: rest => based 2 (fun c => c == '0' || c == '1') rest
  | _ => do
    let (negative, ds, rest) ← decimalInteger? cs
    if digitsValue 10 ds < twoTo 63 + (if negative then 1 else 0) then some rest else none

def exponent? (cs : List Char) : Option (Int × List Char) := do
  let (negative, cs) := sign cs
  let (ds, rest) ← digits? Char.isDigit cs
  let e : Int := digitsValue 10 ds
  some (if negative then -e else e, rest)

/-- A fraction or an exponent, or both: the digits of the fraction, the exponent
and the rest. -/
def floatTail? (cs : List Char) : Option (List Char × Int × List Char) :=
  match cs with
  | '.' :: cs => do
    let (ds, rest) ← digits? Char.isDigit cs
    match rest with
    | 'e' :: rest | 'E' :: rest => do
      let (e, rest) ← exponent? rest
      some (ds, e, rest)
    | _ => some (ds, 0, rest)
  | 'e' :: cs | 'E' :: cs => do
    let (e, rest) ← exponent? cs
    some ([], e, rest)
  | _ => none

def float? (cs : List Char) : Option (List Char) :=
  let (_, unsigned) := sign cs
  match unsigned with
  | 'i' :: 'n' :: 'f' :: rest => some rest
  | 'n' :: 'a' :: 'n' :: rest => some rest
  | _ => do
    let (negative, whole, rest) ← decimalInteger? cs
    let (fraction, e, rest) ← floatTail? rest
    let x := Binary64.ofDecimal negative (digitsValue 10 (whole ++ fraction)) (e - fraction.length)
    if x.isNone && !negative then none else some rest

def fixedDigits? (n : Nat) (cs : List Char) : Option (Nat × List Char) :=
  let ds := cs.take n
  if ds.length = n && ds.all Char.isDigit then some (digitsValue 10 ds, cs.drop n) else none

def isLeapYear (y : Nat) : Bool := y % 4 = 0 && (y % 100 != 0 || y % 400 = 0)

def daysInMonth (y m : Nat) : Nat :=
  if m = 2 then (if isLeapYear y then 29 else 28)
  else if m = 4 || m = 6 || m = 9 || m = 11 then 30
  else 31

def char? (c : Char) (cs : List Char) : Option (List Char) :=
  if cs.head? = some c then some (cs.drop 1) else none

def date? (cs : List Char) : Option (List Char) := do
  let (y, cs) ← fixedDigits? 4 cs
  let (m, cs) ← fixedDigits? 2 (← char? '-' cs)
  let (d, cs) ← fixedDigits? 2 (← char? '-' cs)
  if 1 ≤ m && m ≤ 12 && 1 ≤ d && d ≤ daysInMonth y m then some cs else none

def time? (cs : List Char) : Option (List Char) := do
  let (h, cs) ← fixedDigits? 2 cs
  let (m, cs) ← fixedDigits? 2 (← char? ':' cs)
  let (s, cs) ← fixedDigits? 2 (← char? ':' cs)
  if 23 < h || 59 < m || 60 < s then none
  else match cs with
    | '.' :: rest =>
      if (rest.takeWhile Char.isDigit).isEmpty then some cs
      else some (rest.dropWhile Char.isDigit)
    | _ => some cs

/-- The text after an offset from universal time, if one begins here. -/
def offset? (cs : List Char) : Option (List Char) :=
  match cs with
  | 'Z' :: rest | 'z' :: rest => some rest
  | '+' :: rest | '-' :: rest => do
    let (h, rest) ← fixedDigits? 2 rest
    let (m, rest) ← fixedDigits? 2 (← char? ':' rest)
    if 23 < h || 59 < m then none else some rest
  | _ => some cs

/-- The text after a date, a time or both. -/
def dateTime? (cs : List Char) : Option (List Char) :=
  match date? cs with
  | none => time? cs
  | some rest =>
    match rest with
    | d :: after =>
      if d = 'T' || d = 't' || d = ' ' then
        match time? after with
        | some after => offset? after
        | none => some rest
      else some rest
    | [] => some rest

/-- The text after a value that is neither a string nor a collection. -/
def scalar? (cs : List Char) : Option (List Char) :=
  match cs with
  | 't' :: 'r' :: 'u' :: 'e' :: rest => some rest
  | 'f' :: 'a' :: 'l' :: 's' :: 'e' :: rest => some rest
  | _ =>
    match dateTime? cs with
    | some rest => some rest
    | none =>
      match float? cs with
      | some rest => some rest
      | none => integer? cs

end LayeredConfig.Toml
