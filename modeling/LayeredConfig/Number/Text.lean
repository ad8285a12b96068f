import LayeredConfig.Number.Shortest

/-!
# Written form of binary64 numbers

The shortest digits are written positionally while the number lies between
`10 ^ -5` and `10 ^ 16`, always with a fractional part, and in scientific form
outside, with one digit before the point, a sign in front of the exponent and
no padding of it.
-/

namespace LayeredConfig.Binary64

/-- The positions of the decimal point, relative to the first digit, for which
a number is written positionally. -/
structure PointRange where
  least : Int
  greatest : Int

/-- Positional writing reaches from four zeros after the point to sixteen
digits before it. -/
def positional : PointRange := ⟨-4, 16⟩

def writeDigits (ds : List Char) (k : Int) : List Char :=
  let point := (ds.length : Int) + k
  if 0 ≤ k && point ≤ positional.greatest then
    ds ++ List.replicate k.toNat '0' ++ ['.', '0']
  else if 0 < point && point ≤ positional.greatest then
    ds.take point.toNat ++ ['.'] ++ ds.drop point.toNat
  else if positional.least ≤ point && point ≤ 0 then
    ['0', '.'] ++ List.replicate (-point).toNat '0' ++ ds
  else
    let exponent := (if 0 < point then ['+'] else []) ++ (toString (point - 1)).toList
    match ds with
    | [d] => d :: 'e' :: exponent
    | d :: rest => d :: '.' :: rest ++ 'e' :: exponent
    | [] => []

def text (x : Binary64) : String :=
  let (d, k) := x.shortest
  let digits := writeDigits (Nat.toDigits 10 d) k
  String.ofList (if x.negative then '-' :: digits else digits)

end LayeredConfig.Binary64
