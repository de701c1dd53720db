/-!
# Powers of two and of ten

The sizes of machine words and the decimal places of numbers.
-/

namespace SplitQP

/-- The `k`-th power of two. -/
def pow2 (k : Nat) : Nat := Nat.pow 2 k

/-- The `k`-th power of ten. -/
def pow10 (k : Nat) : Nat := Nat.pow 10 k

end SplitQP
