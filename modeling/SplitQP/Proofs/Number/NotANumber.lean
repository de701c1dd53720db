import Mathlib
import SplitQP.Scalar
/-!
# Not a number

A value that is not a number spreads: what is added to it or multiplied
with it is not a number either. Every comparison with it is false, and the
larger or smaller of two operands is the other one (`Scalar.SpreadsNaN`).
Doubles behave like this.
-/

namespace SplitQP

/-- **Arithmetic in which a value that is not a number spreads,** but for the larger and
the smaller of two operands. -/
class Scalar.SpreadsNaN (α : Type) [Scalar α] : Prop where
  isNaN_zero : isNaN (0 : α) = false
  isNaN_abs {a : α} : isNaN a → isNaN (abs a)
  isNaN_neg {a : α} : isNaN a → isNaN (-a)
  isNaN_add {a b : α} : isNaN a ∨ isNaN b → isNaN (a + b)
  isNaN_mul {a b : α} : isNaN a ∨ isNaN b → isNaN (a * b)
  lt_of_isNaN {a b : α} : isNaN a ∨ isNaN b → lt a b = false
  le_of_isNaN {a b : α} : isNaN a ∨ isNaN b → le a b = false
  max_of_isNaN {a : α} (b : α) : isNaN a → Scalar.max a b = b
  min_of_isNaN {a : α} (b : α) : isNaN a → Scalar.min a b = b
  max_idem (a : α) : Scalar.max a a = a
  min_idem (a : α) : Scalar.min a a = a

/-! ## Doubles -/

namespace Binary

open Float.Model

variable {x y : Float}

theorem isNaN_iff_unpack : x.isNaN ↔ x.toModel.unpack = .notANumber := UnpackedFloat.isNaN_iff

/-- What is put back as not a number is none. -/
theorem isNaN_ofModel {r : UnpackedFloat} (h : r = .notANumber) : (Float.ofModel (pack r)).isNaN := by
  rw [h]
  rfl

/-- An operation that answers `c` for what is not a number, on either side. -/
theorem operation_of_isNaN {β : Type} {op : UnpackedFloat → UnpackedFloat → β} {c : β}
    (hleft : ∀ r, op .notANumber r = c) (hright : ∀ r, op r .notANumber = c)
    (h : x.isNaN ∨ y.isNaN) : op x.toModel.unpack y.toModel.unpack = c := by
  rw [isNaN_iff_unpack, isNaN_iff_unpack] at h
  obtain h | h := h
  · rw [h, hleft]
  · rw [h, hright]

theorem isNaN_abs (h : x.isNaN) : x.abs.isNaN :=
  isNaN_ofModel (by rw [isNaN_iff_unpack.mp h, UnpackedFloat.abs])

theorem isNaN_neg (h : x.isNaN) : (-x).isNaN :=
  isNaN_ofModel (by rw [isNaN_iff_unpack.mp h, UnpackedFloat.neg])

theorem isNaN_add (h : x.isNaN ∨ y.isNaN) : (x + y).isNaN :=
  isNaN_ofModel (operation_of_isNaN (fun _ => rfl) (fun r => by cases r <;> rfl) h)

theorem isNaN_mul (h : x.isNaN ∨ y.isNaN) : (x * y).isNaN :=
  isNaN_ofModel (operation_of_isNaN (fun _ => rfl) (fun r => by cases r <;> rfl) h)

/-- Nothing compares with what is not a number. -/
theorem compare_of_isNaN (h : x.isNaN ∨ y.isNaN) :
    x.toModel.unpack.compare y.toModel.unpack = none :=
  operation_of_isNaN (fun _ => rfl) (fun r => by cases r <;> rfl) h

theorem not_lt_of_isNaN (h : x.isNaN ∨ y.isNaN) : ¬x < y := by
  intro hlt
  have hmodel : x.toModel.unpack.lt y.toModel.unpack = true := of_decide_eq_true hlt
  rw [UnpackedFloat.lt, compare_of_isNaN h] at hmodel
  cases hmodel

theorem not_le_of_isNaN (h : x.isNaN ∨ y.isNaN) : ¬x ≤ y := by
  intro hle
  have hmodel : x.toModel.unpack.le y.toModel.unpack = true := of_decide_eq_true hle
  rw [UnpackedFloat.le, compare_of_isNaN h] at hmodel
  cases hmodel

end Binary

instance : Scalar.SpreadsNaN Float where
  isNaN_zero := rfl
  isNaN_abs := Binary.isNaN_abs
  isNaN_neg := Binary.isNaN_neg
  isNaN_add := Binary.isNaN_add
  isNaN_mul := Binary.isNaN_mul
  lt_of_isNaN h := decide_eq_false (Binary.not_lt_of_isNaN h)
  le_of_isNaN h := decide_eq_false (Binary.not_le_of_isNaN h)
  max_of_isNaN _ h := if_pos (by rw [show Float.isNaN _ = true from h, Bool.or_true])
  min_of_isNaN _ h := if_pos (by rw [show Float.isNaN _ = true from h, Bool.or_true])
  max_idem _ := ite_id _
  min_idem _ := ite_id _

end SplitQP
