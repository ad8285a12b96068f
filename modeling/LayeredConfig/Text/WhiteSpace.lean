/-!
# White space

The characters with the Unicode property `White_Space`, and trimming by it.
The property is wider than the ASCII blanks: it also holds the no-break
spaces, the general-punctuation spaces, both separators and the ideographic
space.
-/

namespace LayeredConfig.Text

/-- The Unicode property `White_Space`. -/
def isWhiteSpace (c : Char) : Bool :=
  (0x09 ≤ c.toNat && c.toNat ≤ 0x0D) || c.toNat == 0x20 || c.toNat == 0x85 ||
  c.toNat == 0xA0 || c.toNat == 0x1680 || (0x2000 ≤ c.toNat && c.toNat ≤ 0x200A) ||
  c.toNat == 0x2028 || c.toNat == 0x2029 || c.toNat == 0x202F || c.toNat == 0x205F ||
  c.toNat == 0x3000

def trimStart (cs : List Char) : List Char :=
  cs.dropWhile isWhiteSpace

def trimEnd (cs : List Char) : List Char :=
  (cs.reverse.dropWhile isWhiteSpace).reverse

def trim (cs : List Char) : List Char :=
  trimEnd (trimStart cs)

def trimString (s : String) : String :=
  String.ofList (trim s.toList)

def trimEndString (s : String) : String :=
  String.ofList (trimEnd s.toList)

end LayeredConfig.Text
