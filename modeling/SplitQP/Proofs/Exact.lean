import Mathlib
import SplitQP.Scalar
import SplitQP.Dense
/-!
# Exact arithmetic

An ordered field is a scalar: `ExactField` names the three things a field
lacks, and `ExactField.scalar` is the arithmetic. Of square roots only
their sign is known, and nothing at all of the two numbers that stand for
"infinite" and "not a number"; a bound counts as infinite from `1e20` on,
so that a number can play its part. Vectors are arrays in the library and
functions on `Fin n` here, by `Dense.vec`.
-/

namespace SplitQP

/-- **An ordered field as a scalar.** -/
class ExactField (K : Type) extends Field K, LinearOrder K, IsStrictOrderedRing K where
  /-- What stands for a square root. -/
  root : K → K
  root_pos : ∀ {x : K}, 0 < x → 0 < root x
  /-- What stands for an infinite value. -/
  huge : K
  /-- What stands for a value that is not a number. -/
  undefined : K

namespace ExactField

variable {K : Type} [ExactField K]

instance scalar : Scalar K where
  toZero := inferInstance
  toOne := inferInstance
  toAdd := inferInstance
  toSub := inferInstance
  toMul := inferInstance
  toDiv := inferInstance
  toNeg := inferInstance
  toNatCast := inferInstance
  toOfScientific := inferInstance
  abs x := |x|
  sqrt := root
  max a b := Max.max a b
  min a b := Min.min a b
  lt a b := decide (a < b)
  le a b := decide (a ≤ b)
  eq a b := decide (a = b)
  isNaN _ := false
  isFinite _ := true
  infinity := huge
  nan := undefined

@[simp] theorem abs_eq (x : K) : Scalar.abs x = |x| := rfl

@[simp] theorem max_eq (a b : K) : Scalar.max a b = max a b := rfl

@[simp] theorem min_eq (a b : K) : Scalar.min a b = min a b := rfl

@[simp] theorem lt_iff {a b : K} : Scalar.lt a b = true ↔ a < b := decide_eq_true_iff

@[simp] theorem le_iff {a b : K} : Scalar.le a b = true ↔ a ≤ b := decide_eq_true_iff

@[simp] theorem eq_iff {a b : K} : Scalar.eq a b = true ↔ a = b := decide_eq_true_iff

@[simp] theorem eq_eq_false_iff {a b : K} : Scalar.eq a b = false ↔ a ≠ b := decide_eq_false_iff_not

@[simp] theorem isNaN_eq (a : K) : Scalar.isNaN a = false := rfl

@[simp] theorem isFinite_eq (a : K) : Scalar.isFinite a = true := rfl

@[simp] theorem recip_eq (a : K) : Scalar.recip a = a⁻¹ := one_div a

@[simp] theorem clamp_eq (v lo hi : K) : Scalar.clamp v lo hi = min (max v lo) hi := rfl

theorem sqrt_pos {a : K} (h : 0 < a) : 0 < Scalar.sqrt a := root_pos h

/-- The rationals, with the root rounded to a rational. The stand-ins are out of
the range of all bounds. -/
instance : ExactField ℚ where
  root := Rat.sqrt
  root_pos := by
    intro x hx
    have hnum : 0 < Nat.sqrt x.num.toNat := Nat.sqrt_pos.mpr (by have := Rat.num_pos.mpr hx; omega)
    have hden : 0 < Nat.sqrt x.den := Nat.sqrt_pos.mpr x.den_pos
    rw [Rat.sqrt, Rat.mkRat_eq_div, Int.sqrt]
    positivity
  huge := 1e30
  undefined := -1e30

end ExactField

namespace Dense

variable {α : Type}

/-- Inside its bounds an array answers its entry. -/
theorem getD_of_lt {x : Array α} {i : ℕ} (d : α) (h : i < x.size) : x.getD i d = x[i] := by
  rw [Array.getD, dif_pos h]
  rfl

theorem getD_set {x : Array α} {i j : ℕ} {a d : α} (hi : i < x.size) (hj : j < x.size) :
    (x.set i a).getD j d = if i = j then a else x.getD j d := by
  rw [getD_of_lt _ (by simpa using hj), getD_of_lt _ hj, Array.getElem_set]

theorem getD_setIfInBounds {x : Array α} {i j : ℕ} {a d : α} (hj : j < x.size) :
    (x.setIfInBounds i a).getD j d = if i = j then a else x.getD j d := by
  rw [getD_of_lt _ (by simpa using hj), getD_of_lt _ hj, Array.getElem_setIfInBounds hj]

theorem getD_modify {x : Array α} {i j : ℕ} {d : α} (f : α → α) (hj : j < x.size) :
    (x.modify i f).getD j d = if i = j then f (x.getD j d) else x.getD j d := by
  rw [getD_of_lt _ (by simpa using hj), getD_of_lt _ hj, Array.getElem_modify]

/-- An array is what it holds. -/
theorem ext_getD {n : ℕ} {x y : Array α} (d : α) (hx : x.size = n) (hy : y.size = n)
    (h : ∀ i < n, x.getD i d = y.getD i d) : x = y := by
  refine Array.ext (hx.trans hy.symm) fun i hi hi' => ?_
  rw [← getD_of_lt d hi, ← getD_of_lt d hi']
  exact h i (by omega)

theorem getD_zipWith {β γ : Type} {f : α → β → γ} {x : Array α} {y : Array β} {i : ℕ}
    (dx : α) (dy : β) (d : γ) (hx : i < x.size) (hy : i < y.size) :
    (x.zipWith f y).getD i d = f (x.getD i dx) (y.getD i dy) := by
  rw [getD_of_lt _ (by simp; omega), getD_of_lt _ hx, getD_of_lt _ hy]
  simp

theorem getD_map {β : Type} {f : α → β} {x : Array α} {i : ℕ} (d : α) (e : β) (hx : i < x.size) :
    (x.map f).getD i e = f (x.getD i d) := by
  rw [getD_of_lt _ (by simpa using hx), getD_of_lt _ hx]
  simp

theorem getD_constant {n i : ℕ} {c d : α} (h : i < n) : (constant n c).getD i d = c := by
  rw [getD_of_lt _ (by simpa [constant] using h)]
  simp [constant]

@[simp] theorem size_constant {n : ℕ} {c : α} : (constant n c).size = n := by simp [constant]

variable [Scalar α]

@[simp] theorem size_scale {c : α} {x : Array α} : (scale c x).size = x.size := by simp [scale]

/-- The entries of an array as a vector; zero beyond its end. -/
def vec (n : ℕ) (x : Array α) : Fin n → α := fun i => x.getD i 0

end Dense

end SplitQP
