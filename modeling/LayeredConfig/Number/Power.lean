/-!
# Powers of two and ten

The bounds of binary numbers are powers of two, and decimal exponents stand for
powers of ten.
-/

namespace LayeredConfig

def twoTo (n : Nat) : Nat := Nat.pow 2 n

def tenTo (n : Nat) : Nat := Nat.pow 10 n

end LayeredConfig
