/-!
# Scalars — the arithmetic an algorithm runs on

Every algorithm of the library is written once, over a type with this
arithmetic. It runs on `Float`; theorems instantiate it with an ordered
field, or with numbers extended by a value that is not a number.
Comparisons are functions to `Bool` and need not be total: on `Float`
each of them is `false` when an operand is not a number.
-/

namespace SplitQP

/-- Arithmetic with square roots, partial comparisons, and one value each
for "infinite" and "not a number". -/
class Scalar (α : Type) extends Zero α, One α, Add α, Sub α, Mul α, Div α, Neg α,
    NatCast α, OfScientific α where
  /-- Magnitude. -/
  abs : α → α
  /-- Square root. -/
  sqrt : α → α
  /-- The larger operand, and the other one where one is not a number. -/
  max : α → α → α
  /-- The smaller operand, and the other one where one is not a number. -/
  min : α → α → α
  /-- Strictly smaller. -/
  lt : α → α → Bool
  /-- Smaller or equal. -/
  le : α → α → Bool
  /-- Equal as numbers. -/
  eq : α → α → Bool
  /-- Not a number. -/
  isNaN : α → Bool
  /-- Neither infinite nor not a number. -/
  isFinite : α → Bool
  /-- An infinite value. -/
  infinity : α
  /-- A value that is not a number. -/
  nan : α

namespace Scalar

variable {α : Type} [Scalar α]

/-- `1 / x`. -/
@[inline] def recip (x : α) : α := 1 / x

/-- `v` moved into `[lo, hi]`. -/
@[inline] def clamp (v lo hi : α) : α := Scalar.min (Scalar.max v lo) hi

end Scalar

/-- Doubles. Of two zeros `max` and `min` give the first operand. -/
instance : Scalar Float where
  zero := 0.0
  one := 1.0
  natCast := Float.ofNat
  ofScientific := Float.ofScientific
  abs := Float.abs
  sqrt := Float.sqrt
  max a b := if a < b || a.isNaN then b else a
  min a b := if b < a || a.isNaN then b else a
  lt a b := decide (a < b)
  le a b := decide (a ≤ b)
  eq a b := a == b
  isNaN := Float.isNaN
  isFinite := Float.isFinite
  infinity := 1.0 / 0.0
  nan := 0.0 / 0.0

end SplitQP
