import SplitQP.Number.Binary
/-!
# Whole numbers from doubles

Rounding to a whole number answers a double again: the nearest one without a
fraction, a half going to the one farther from zero. Turning a double into a
machine integer is another matter: the fraction is cut off, and what lies
beyond the range of the integer becomes the end of the range it is beyond.
-/

namespace SplitQP

namespace Binary

/-- **A double without its fraction,** halves away from zero. What is infinite or not a
number stays so. -/
def rounded (x : Float) : Float :=
  match ofFloat x with
  | finite negative m e =>
    if 0 ≤ e then x
    else
      -- below `2 ^ 53`, so no digit is lost
      let magnitude := (roundDiv .up m (pow2 (-e).toNat)).toUInt64.toFloat
      if negative then -magnitude else magnitude
  | _ => x

/-- `n`, or the end of the range that `n` is beyond. -/
def saturate (lo hi n : Int) : Int := max lo (min hi n)

/-- **A machine integer** from `lo` to `hi`. The fraction is cut off, and "not a number"
counts as zero. -/
def toWord (lo hi : Int) : Binary → Int
  | nan => 0
  | infinite negative => if negative then lo else hi
  | finite negative m e =>
    let whole : Nat := (ratio m e).1 / (ratio m e).2
    saturate lo hi (if negative then -whole else whole)

/-- The range of 64 bits with a sign. -/
def toSigned64 (x : Float) : Int := (ofFloat x).toWord (-pow2 63) (pow2 63 - 1)

/-- The range of 32 bits without a sign. -/
def toUnsigned32 (x : Float) : Int := (ofFloat x).toWord 0 (pow2 32 - 1)

end Binary

end SplitQP
