import LayeredConfig.Json.Basic

/-!
# Plain scalars

The value of a scalar that is neither quoted nor tagged: null, a boolean, an
integer, a float, or else a string.  The spellings are those of the core schema
of YAML 1.2, extended by binary integers.
-/

namespace LayeredConfig.Yaml

def after? (start : String) (cs : List Char) : Option (List Char) :=
  if start.toList.isPrefixOf cs then some (cs.drop start.length) else none

def isNullWord (cs : List Char) : Bool :=
  ["null", "Null", "NULL", "~"].any (·.toList == cs)

def boolWord? (cs : List Char) : Option Bool :=
  if ["true", "True", "TRUE"].any (·.toList == cs) then some true
  else if ["false", "False", "FALSE"].any (·.toList == cs) then some false
  else none

/-- The value of a letter or digit as a digit below `base`. -/
def digitBelow? (base : Nat) (c : Char) : Option Nat :=
  let d? :=
    if c.isDigit then some (c.toNat - '0'.toNat)
    else if c.isAlpha then some (c.toLower.toNat - 'a'.toNat + 10)
    else none
  d?.filter (· < base)

def digits? (base : Nat) (cs : List Char) : Option Nat :=
  if cs.isEmpty then none
  else cs.foldlM (fun n c => (digitBelow? base c).map (n * base + ·)) 0

/-- Several digits of which the first is zero, after an optional sign.  Such a
scalar is no number. -/
def isPaddedDigits (cs : List Char) : Bool :=
  let ds := match cs with
    | '-' :: rest | '+' :: rest => rest
    | _ => cs
  1 < ds.length && ds.head? = some '0' && ds.all Char.isDigit

/-- The bases other than ten and how they are announced. -/
def bases : List (String × Nat) := [("0x", 16), ("0o", 8), ("0b", 2)]

def basedDigits? (cs : List Char) : Option Nat :=
  bases.findSome? fun (start, base) => (after? start cs).bind (digits? base)

def integer? (cs : List Char) : Option Int :=
  match cs with
  | '-' :: rest =>
    match basedDigits? rest with
    | some n => some (-n)
    | none => if isPaddedDigits cs then none else (digits? 10 rest).map fun n => -(n : Int)
  | _ =>
    let rest := match cs with
      | '+' :: rest => rest
      | _ => cs
    match basedDigits? rest with
    | some n => some n
    | none => if isPaddedDigits cs then none else (digits? 10 rest).map fun n => (n : Int)

/-- Digits, at most one point, at least one digit around it, and an optional
exponent, as a decimal `n * 10 ^ e`. -/
def decimal? (cs : List Char) : Option (Nat × Int) :=
  let whole := cs.takeWhile Char.isDigit
  let rest := cs.dropWhile Char.isDigit
  let (fraction, rest) := match rest with
    | '.' :: rest => (rest.takeWhile Char.isDigit, rest.dropWhile Char.isDigit)
    | _ => ([], rest)
  if whole.isEmpty && fraction.isEmpty then none
  else
    let n := (whole ++ fraction).foldl (fun n c => n * 10 + (c.toNat - '0'.toNat)) 0
    let e := -(fraction.length : Int)
    match rest with
    | [] => some (n, e)
    | c :: rest =>
      if c = 'e' || c = 'E' then
        let (minus, ds) := match rest with
          | '-' :: ds => (true, ds)
          | '+' :: ds => (false, ds)
          | ds => (false, ds)
        (digits? 10 ds).map fun x => (n, if minus then e - x else e + x)
      else none

inductive FloatValue where
  | finite (x : Binary64)
  | notFinite

/-- A float.  The words for infinity and not-a-number are `notFinite`; a number
beyond the finite ones is no float. -/
def float? (cs : List Char) : Option FloatValue :=
  let (unsigned, plus) := match cs with
    | '+' :: rest => (rest, true)
    | _ => (cs, false)
  let words := [".inf", ".Inf", ".INF"]
  if words.any (·.toList == unsigned) then some .notFinite
  else if ["-.inf", "-.Inf", "-.INF", ".nan", ".NaN", ".NAN"].any (·.toList == cs) then
    some .notFinite
  else
    let (negative, magnitude) := match unsigned with
      | '-' :: rest => (true, rest)
      | '+' :: rest => (false, rest)
      | _ => (false, unsigned)
    if plus && magnitude.length < unsigned.length then none
    else do
      let (n, e) ← decimal? magnitude
      (Binary64.ofDecimal negative n e).map .finite

/-- The number of an integer.  One that needs more than 64 bits is an error, and
one that needs more than 128 is not taken as an integer at all. -/
inductive IntegerRange where
  | fits (n : Int)
  | tooLarge
  | notInteger

def integerRange (cs : List Char) : IntegerRange :=
  match integer? cs with
  | none => .notInteger
  | some n =>
    if -(twoTo 63 : Int) ≤ n && n < twoTo 64 then .fits n
    else if -(twoTo 127 : Int) ≤ n && n < twoTo 128 then .tooLarge
    else .notInteger

/-- The number of a float; null if it is not finite. -/
def FloatValue.json : FloatValue → Json
  | .finite x => .number (.float x)
  | .notFinite => .null

def plainValue? (cs : List Char) : Option Json :=
  if cs.isEmpty || isNullWord cs then some .null
  else
    match boolWord? cs, integerRange cs with
    | some b, _ => some (.bool b)
    | none, .fits n => some (.number (.int n))
    | none, .tooLarge => none
    | none, .notInteger =>
      match (if isPaddedDigits cs then none else float? cs) with
      | some x => some x.json
      | none => some (.string (String.ofList cs))

end LayeredConfig.Yaml
