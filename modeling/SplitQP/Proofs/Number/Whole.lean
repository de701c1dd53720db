import Mathlib.Data.Rat.Floor
import SplitQP.Number.Nearest
import SplitQP.Number.Whole
import SplitQP.Proofs.Number.Shortest
/-!
# Whole numbers from doubles

A double that is rounded and then cut down to a machine integer gives the
integer nearest to what it stands for, halves away from zero, or the end of
the range that this is beyond (`toWord_rounded`). Rounding to a double loses
nothing, because a double with a fraction is below `2 ^ 53`.
-/

namespace SplitQP

namespace Binary

/-! ## The nearest integer -/

/-- **The nearest integer,** halves away from zero. -/
def awayFromZero (q : ℚ) : ℤ := if 0 ≤ q then ⌊q + 1 / 2⌋ else ⌈q - 1 / 2⌉

/-- What a finite number is worth. -/
def worth (negative : Bool) (m : ℕ) (e : ℤ) : ℚ := if negative then -(m * 2 ^ e) else m * 2 ^ e

/-- **What a double is as a machine integer** from `lo` to `hi`, once it is rounded. -/
def whole (lo hi : ℤ) : Binary → ℤ
  | nan => 0
  | infinite negative => if negative then lo else hi
  | finite negative m e => saturate lo hi (awayFromZero (worth negative m e))

theorem awayFromZero_neg {q : ℚ} (hq : 0 ≤ q) : awayFromZero (-q) = -awayFromZero q := by
  rcases hq.eq_or_lt with rfl | hpos
  · norm_num [awayFromZero]
  · rw [awayFromZero, awayFromZero, if_neg (by linarith), if_pos hq, ← Int.ceil_neg]
    congr 1
    ring

/-- An integer is its own nearest one. -/
theorem awayFromZero_natCast (n : ℕ) : awayFromZero n = n := by
  rw [awayFromZero, if_pos (Nat.cast_nonneg n), Int.floor_eq_iff]
  push_cast
  constructor <;> linarith

/-- **Halves go up** in the quotient of natural numbers. -/
theorem awayFromZero_div (a : ℕ) {b : ℕ} (hb : 0 < b) :
    awayFromZero (a / b) = roundDiv .up a b := by
  have hb' : (0 : ℚ) < b := by exact_mod_cast hb
  have ha := Nat.div_add_mod a b
  have hr := Nat.mod_lt a hb
  have hbounds : 2 * (b * roundDiv .up a b) ≤ 2 * a + b ∧
      2 * a + b < 2 * (b * roundDiv .up a b) + 2 * b := by
    rw [roundDiv]
    split_ifs with hlt hgt
    · omega
    · rw [Nat.mul_add]
      omega
    · rw [Nat.mul_add]
      omega
  obtain ⟨hlow, hhigh⟩ := hbounds
  have hlow' : (2 * (b * roundDiv .up a b) : ℚ) ≤ 2 * a + b := by exact_mod_cast hlow
  have hhigh' : (2 * a + b : ℚ) < 2 * (b * roundDiv .up a b) + 2 * b := by exact_mod_cast hhigh
  rw [awayFromZero, if_pos (by positivity), Int.floor_eq_iff, Int.cast_natCast,
    ← sub_le_iff_le_add, le_div_iff₀ hb', ← lt_sub_iff_add_lt, div_lt_iff₀ hb']
  constructor <;> linarith

theorem ratio_snd_pos (m : ℕ) (e : ℤ) : 0 < (ratio m e).2 := Nat.two_pow_pos _

/-- A number as the quotient it is computed with. -/
theorem ratio_div (m : ℕ) (e : ℤ) : ((ratio m e).1 / (ratio m e).2 : ℚ) = m * 2 ^ e := by
  rw [ratio, pow2_eq, pow2_eq]
  push_cast
  rw [mul_div_assoc, pow_toNat_div]

/-- **The nearest integer of a finite number.** -/
theorem nearest_finite (negative : Bool) (m : ℕ) (e : ℤ) :
    (finite negative m e).nearest = awayFromZero (worth negative m e) := by
  have hround : awayFromZero (m * 2 ^ e) = roundDiv .up (ratio m e).1 (ratio m e).2 := by
    rw [← ratio_div, awayFromZero_div _ (ratio_snd_pos m e)]
  have hnonneg : (0 : ℚ) ≤ m * 2 ^ e := by positivity
  cases negative with
  | false => exact hround.symm
  | true =>
    rw [worth, if_pos rfl, awayFromZero_neg hnonneg, hround]
    rfl

/-- An infinite value is beyond the range of any machine integer. -/
theorem whole_eq_saturate {lo hi : ℤ} (hlo : -2 ^ 64 ≤ lo) (hlo' : lo ≤ 0) (hhi : 0 ≤ hi)
    (hhi' : hi ≤ 2 ^ 64) (b : Binary) : b.whole lo hi = saturate lo hi b.nearest := by
  have hpow : pow2 64 = 2 ^ 64 := rfl
  cases b with
  | nan =>
    simp only [whole, nearest, saturate]
    omega
  | infinite negative =>
    cases negative <;> simp only [whole, nearest, signed, saturate, hpow] <;> norm_num <;> omega
  | finite negative m e => rw [whole, nearest_finite]

/-! ## Rounding to a double -/

theorem ofFloat_toFloat {m : ℕ} {e : ℤ} (negative : Bool) (hc : Canonical m e) :
    ofFloat (finite negative m e).toFloat = finite negative m e := by
  have hbits := ofBits_pack_finite negative hc
  rw [toFloat, unpacked, dif_pos hc.pos]
  exact hbits

/-- What a double that is a number stands for. -/
theorem ofFloat_of_isNat {x : Float} {n : ℕ} (h : IsNat x n) :
    ∃ m e, Canonical m e ∧ ofFloat x = finite false m e ∧ (m * 2 ^ e : ℚ) = n := by
  obtain ⟨m, e, hm, hx, hn, -⟩ := h
  rw [unpack_toModel] at hx
  have hof : ofFloat x = finite false m e := by
    cases hb : ofFloat x with
    | nan => rw [hb] at hx; cases hx
    | infinite negative => rw [hb] at hx; cases hx
    | finite negative m' e' =>
      rw [hb, unpacked] at hx
      split at hx
      · cases negative with
        | false => cases hx; rfl
        | true => cases hx
      · cases hx
  refine ⟨m, e, (canonical_or_zero false hof).resolve_right fun h => ?_, hof, hn⟩
  omega

/-- **A number below `2 ^ 53` and its negative** as doubles. -/
theorem ofFloat_toUInt64 {n : ℕ} (hn : n < 2 ^ 53) : ∃ (m : ℕ) (e : ℤ), (m * 2 ^ e : ℚ) = n ∧
    ofFloat n.toUInt64.toFloat = finite false m e ∧
    ofFloat (-n.toUInt64.toFloat) = finite true m e := by
  rcases Nat.eq_zero_or_pos n with rfl | hpos
  · refine ⟨0, -1074, by simp, by decide +kernel, by decide +kernel⟩
  · obtain ⟨m, e, hc, hof, hvalue⟩ := ofFloat_of_isNat (isNat_toFloat hpos hn)
    refine ⟨m, e, hvalue, hof, ?_⟩
    rw [← toFloat_ofFloat n.toUInt64.toFloat, hof, neg_toFloat hc, ofFloat_toFloat true hc]

/-- The integer part of an integer. -/
theorem ratio_div_of_eq {m n : ℕ} {e : ℤ} (h : (m * 2 ^ e : ℚ) = n) :
    (ratio m e).1 / (ratio m e).2 = n := by
  have hpos := ratio_snd_pos m e
  have hne : ((ratio m e).2 : ℚ) ≠ 0 := by exact_mod_cast hpos.ne'
  have hmul : (ratio m e).1 = n * (ratio m e).2 := by
    rw [← ratio_div, div_eq_iff hne] at h
    exact_mod_cast h
  rw [hmul, Nat.mul_div_cancel _ hpos]

theorem worth_of_eq {m n : ℕ} {e : ℤ} (negative : Bool) (h : (m * 2 ^ e : ℚ) = n) :
    awayFromZero (worth negative m e) = if negative then -(n : ℤ) else n := by
  rw [worth, h]
  cases negative with
  | false => exact awayFromZero_natCast n
  | true =>
    rw [if_pos rfl, awayFromZero_neg (Nat.cast_nonneg n), awayFromZero_natCast, if_pos rfl]

/-- A fraction with another denominator than one is rounded to no more than its numerator. -/
theorem roundDiv_le (m : ℕ) {d : ℕ} (hd : 2 ≤ d) : roundDiv .up m d ≤ m := by
  have hm := Nat.div_add_mod m d
  have hq : 2 * (m / d) ≤ d * (m / d) := Nat.mul_le_mul_right _ hd
  rw [roundDiv]
  split_ifs <;> omega

/-- **Rounding first and cutting down then** gives the nearest integer. -/
theorem toWord_rounded (lo hi : ℤ) (x : Float) :
    (ofFloat (rounded x)).toWord lo hi = (ofFloat x).whole lo hi := by
  rw [rounded]
  cases hx : ofFloat x with
  | nan => simp only [hx, toWord, whole]
  | infinite negative => simp only [hx, toWord, whole]
  | finite negative m e =>
    have hm : m < 2 ^ 53 := by
      rcases canonical_or_zero negative hx with hc | ⟨rfl, -⟩
      · exact hc.lt
      · norm_num
    dsimp only
    by_cases he : 0 ≤ e
    · -- without a fraction the double stays as it is
      have hvalue : (m * 2 ^ e : ℚ) = (m * 2 ^ e.toNat : ℕ) := by
        obtain ⟨k, rfl⟩ := Int.eq_ofNat_of_zero_le he
        push_cast
        rw [Int.toNat_natCast, zpow_natCast]
      rw [if_pos he, hx, toWord, ratio_div_of_eq hvalue, whole, worth_of_eq negative hvalue]
    · obtain ⟨m', e', hvalue, hpos, hneg⟩ :=
        ofFloat_toUInt64 ((roundDiv_le m (Nat.le_self_pow (by omega : (-e).toNat ≠ 0) 2)).trans_lt hm)
      have hnearest : (finite negative m e).nearest =
          signed negative (roundDiv .up m (pow2 (-e).toNat)) := by
        rw [nearest, ratio, Int.toNat_eq_zero.mpr (by omega)]
        exact congrArg (fun a => signed negative (roundDiv .up a _)) (Nat.mul_one m)
      rw [if_neg he, whole, ← nearest_finite, hnearest]
      cases negative with
      | false =>
        rw [if_neg Bool.false_ne_true, pow2_eq, hpos, toWord, ratio_div_of_eq hvalue]
        rfl
      | true =>
        rw [if_pos rfl, pow2_eq, hneg, toWord, ratio_div_of_eq hvalue]
        rfl

end Binary

end SplitQP
