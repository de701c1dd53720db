import SplitQP.Scalar
import SplitQP.Number.Binary
/-!
# The nearest integer

Callers give every setting as a number, also those that count or switch.
Such a number stands for the integer nearest to it, a half for the one
farther from zero, and one that is not a number stands for zero.
-/

namespace SplitQP

/-- Arithmetic with rounding to integers. -/
class RoundingScalar (α : Type) extends Scalar α where
  /-- The nearest integer. Halves go away from zero, "not a number" counts as
  zero, and an infinite value is beyond every machine word. -/
  nearest : α → Int

namespace Binary

/-- `n`, negated where `negative`. -/
def signed (negative : Bool) (n : Nat) : Int := if negative then -n else n

/-- **The nearest integer, halves away from zero.** -/
def nearest : Binary → Int
  | nan => 0
  | infinite negative => signed negative (pow2 64)
  | finite negative m e => signed negative (roundDiv .up (ratio m e).1 (ratio m e).2)

end Binary

instance : RoundingScalar Float where
  nearest x := (Binary.ofFloat x).nearest

end SplitQP
