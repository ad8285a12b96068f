import LayeredConfig.Text.Split

/-!
# 32-bit integers as text

An integer is written in decimal with a minus sign if it is negative.  Reading
also takes a plus sign and leading zeros, and refuses everything outside the
range of 32 bits.
-/

namespace LayeredConfig

def int32OfInt? (n : Int) : Option Int32 :=
  if Int32.minValue.toInt ≤ n ∧ n ≤ Int32.maxValue.toInt then some (Int32.ofInt n) else none

/-- The number that a non-empty run of decimal digits denotes. -/
def readDigits? (cs : List Char) : Option Nat :=
  if !cs.isEmpty && cs.all Char.isDigit then
    some (cs.foldl (fun n c => 10 * n + (c.toNat - '0'.toNat)) 0)
  else none

/-- The integer denoted by decimal digits with an optional sign. -/
def readInteger? : List Char → Option Int
  | '-' :: cs => (readDigits? cs).map fun n => -(n : Int)
  | '+' :: cs => (readDigits? cs).map fun n => (n : Int)
  | cs => (readDigits? cs).map fun n => (n : Int)

def readInt32? (text : String) : Option Int32 :=
  (readInteger? text.toList).bind int32OfInt?

def writeInt32 (n : Int32) : String :=
  toString n.toInt

end LayeredConfig
