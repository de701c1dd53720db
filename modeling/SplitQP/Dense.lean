import SplitQP.Fault
import SplitQP.Scalar
/-!
# Dense vectors

Vectors are arrays. An operation on several vectors requires equal
lengths and faults otherwise; each is a requirement followed by one
entrywise map or one left fold, so that sums are formed from the first
entry on.
-/

namespace SplitQP

open Checked

namespace Dense

variable {α : Type} [Scalar α]

/-- `n` entries, all `c`. -/
def constant (n : Nat) (c : α) : Array α := Array.replicate n c

/-- The first magnitude that is not a number, else the largest of `out`
and all magnitudes. -/
def largestFrom (out : α) : List α → α
  | [] => out
  | v :: vs =>
    let a := Scalar.abs v
    if Scalar.isNaN a then a
    else largestFrom (if Scalar.lt out a then a else out) vs

/-- **Largest magnitude, zero when empty.** Not a number as soon as one
entry is not. -/
def largest (vs : List α) : α := largestFrom 0 vs

/-- `xᵢ·yᵢ` in each entry. -/
def hadamard (x y : Array α) : Checked (Array α) := do
  require (x.size = y.size) .lengthMismatch
  return x.zipWith (· * ·) y

/-- Each entry times `c`. -/
def scale (c : α) (x : Array α) : Array α := x.map (· * c)

/-- `Σ xᵢ·yᵢ`, from the first entry on. -/
def dot (x y : Array α) : Checked α := do
  require (x.size = y.size) .lengthMismatch
  return (x.zipWith (· * ·) y).foldl (· + ·) 0

/-- `max |xᵢ|`. -/
def normInf (x : Array α) : α := largest x.toList

/-- `max |xᵢ·vᵢ|`. -/
def normInfScaled (x v : Array α) : Checked α := do
  require (x.size = v.size) .lengthMismatch
  return largest (x.zipWith (· * ·) v).toList

/-- `max |xᵢ − bᵢ|`. -/
def normInfDiff (x b : Array α) : Checked α := do
  require (x.size = b.size) .lengthMismatch
  return largest (x.zipWith (· - ·) b).toList

/-- Mean value, zero when empty. -/
def mean (x : Array α) : α :=
  if x.isEmpty then 0 else x.foldl (· + ·) 0 / (x.size : α)

/-- No entry is infinite or not a number. -/
def isFinite (x : Array α) : Bool := x.all Scalar.isFinite

/-- `src`, in place of the equally long `dst`. -/
def copyTo (dst src : Array α) : Checked (Array α) := do
  require (dst.size = src.size) .lengthMismatch
  return src

/-- `f srcᵢ` in each entry, in place of the equally long `dst`. -/
def mapTo (dst : Array α) (f : α → α) (src : Array α) : Checked (Array α) := do
  require (dst.size = src.size) .lengthMismatch
  return src.map f

/-- `a·x + b·y`. -/
def combine (a : α) (x : Array α) (b : α) (y : Array α) : Checked (Array α) := do
  require (x.size = y.size) .lengthMismatch
  return x.zipWith (fun u v => a * u + b * v) y

/-- `a·x + b·y`, in place of the equally long `dst`. -/
def combineTo (dst : Array α) (a : α) (x : Array α) (b : α) (y : Array α) :
    Checked (Array α) := do
  require (dst.size = x.size) .lengthMismatch
  combine a x b y

end Dense

end SplitQP
