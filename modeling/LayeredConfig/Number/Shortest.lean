import LayeredConfig.Number.Binary64

/-!
# Shortest decimal digits

The decimal written for a binary64 number is the one with the fewest digits
among those that read back as the number, and of these the nearest to it; of two
that are equally near, the one with the even last digit.  The decimals that read
back form an interval around the number, half way to its neighbours on either
side; the ends belong to it if the significand is even.
A grid of decimals with a point in the interval also has one of the number's
two grid neighbours in it, so only these two are tried for each digit count.
-/

namespace LayeredConfig.Binary64

/-- The largest `p` with `10 ^ p` at most the positive number `num / den`. -/
def decimalExponent (num den : Nat) : Int :=
  let estimate : Int := (((Nat.log2 num : Int) - Nat.log2 den - 1) * 30103).fdiv 100000
  let reaches (p : Int) : Bool :=
    if 0 ≤ p then den * tenTo p.toNat ≤ num else den ≤ num * tenTo (-p).toNat
  if reaches (estimate + 1) then (if reaches (estimate + 2) then estimate + 2 else estimate + 1)
  else estimate

/-- The decimals `d` and `d + 1` times `10 ^ k` around the number, as far as
they read back as it: the nearer one if both do, and the even one if neither is
nearer. -/
def gridDigits? (x : Binary64) (k : Int) : Option Nat :=
  let unit := x.exponent - 2
  let scale (n : Nat) : Nat :=
    n * (if 0 ≤ unit then twoTo unit.toNat else 1) * (if 0 ≤ k then 1 else tenTo (-k).toNat)
  let den := (if 0 ≤ unit then 1 else twoTo (-unit).toNat) * (if 0 ≤ k then tenTo k.toNat else 1)
  let value := scale (4 * x.significand)
  let gapBelow := if x.significand = twoTo 52 && leastExponent < x.exponent then 1 else 2
  let low := scale (4 * x.significand - gapBelow)
  let high := scale (4 * x.significand + 2)
  let within (d : Nat) : Bool :=
    if x.significand % 2 = 0 then low ≤ d * den && d * den ≤ high
    else low < d * den && d * den < high
  let d := value / den
  match within d, within (d + 1) with
  | true, true =>
    let left := 2 * (value - d * den)
    some (if left < den || (left = den && d % 2 = 0) then d else d + 1)
  | true, false => some d
  | false, true => some (d + 1)
  | false, false => none

/-- The first grid with a hit, from `count` digits on. -/
def shortestFrom (x : Binary64) (top : Int) : Nat → Nat → Nat × Int
  | 0, count => ((gridDigits? x (top + 1 - count)).getD 0, top + 1 - count)
  | more + 1, count =>
    match gridDigits? x (top + 1 - count) with
    | some d => (d, top + 1 - count)
    | none => shortestFrom x top more (count + 1)

/-- `d / 10 ^ n` for the largest `n` at most `fuel` with no remainder, and `n`. -/
def dropZeros : Nat → Nat → Nat × Nat
  | 0, d => (d, 0)
  | fuel + 1, d =>
    if d % 10 = 0 && d != 0 then
      let (d, n) := dropZeros fuel (d / 10)
      (d, n + 1)
    else (d, 0)

/-- Digits and decimal exponent of the shortest decimal for the magnitude. -/
def shortest (x : Binary64) : Nat × Int :=
  if x.isZero then (0, 0)
  else
    let (num, den) := x.ratio
    let (d, k) := shortestFrom x (decimalExponent num den) 16 1
    let (d, n) := dropZeros 20 d
    (d, k + n)

end LayeredConfig.Binary64
