import SplitQP.Number.Power
/-!
# Binary numbers — what a double stands for

A double is not a number, infinite, or `± m · 2 ^ e` with `m` and `e`
integers. Decimal text is computed from `m` and `e` alone, in exact
arithmetic.
-/

namespace SplitQP

/-- The value of a double. -/
inductive Binary where
  | nan
  | infinite (negative : Bool)
  /-- `m · 2 ^ e`, negated where `negative`. -/
  | finite (negative : Bool) (m : Nat) (e : Int)
  deriving DecidableEq, Repr

namespace Binary

/-- The value of 64 bits: sign, 11 bits of exponent, 52 bits of mantissa. -/
def ofBits (bits : UInt64) : Binary :=
  let b := bits.toNat
  let negative := b / pow2 63 == 1
  let exponent : Nat := b / pow2 52 % pow2 11
  let mantissa : Nat := b % pow2 52
  if exponent = 2047 then
    if mantissa = 0 then .infinite negative else .nan
  else if exponent = 0 then .finite negative mantissa (-1074)
  else .finite negative (pow2 52 + mantissa) (exponent - 1075)

/-- The value of a double. -/
def ofFloat (x : Float) : Binary := ofBits x.toBits

/-- `m · 2 ^ e` as a quotient of natural numbers. -/
def ratio (m : Nat) (e : Int) : Nat × Nat := (m * pow2 e.toNat, pow2 (-e).toNat)

end Binary

/-- Which of two equally near neighbours is taken. -/
inductive Tie where
  | toEven
  | up
  deriving DecidableEq, Repr

/-- **The integer nearest to `num / den`.** -/
def roundDiv (tie : Tie) (num den : Nat) : Nat :=
  let q := num / den
  let r := num % den
  if 2 * r < den then q
  else if den < 2 * r then q + 1
  else match tie with
    | .toEven => q + q % 2
    | .up => q + 1

end SplitQP
