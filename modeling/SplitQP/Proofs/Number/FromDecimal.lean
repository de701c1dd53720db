import Mathlib.Tactic.FieldSimp
import SplitQP.Proofs.Number.Rounding
/-!
# From decimals to doubles

A decimal `d · 10 ^ k` is read as the double that it is rounded to
(`float_ofScientific_eq`). Where `d` and the power of ten are doubles
themselves it is their product or quotient, and otherwise a product or a
quotient of numbers of any length; each is rounded once (`mul_eq`,
`div_eq`).
-/

namespace SplitQP

open Float.Model Float.Model.UnpackedFloat

namespace Binary

variable {m m₁ m₂ : ℕ} {e e₁ e₂ : ℤ} {h₁ : 0 < m₁} {h₂ : 0 < m₂}

/-! ## Products and quotients -/

/-- **A product is rounded once.** -/
theorem mul_eq (hc : Canonical m e) (hv : RoundsTo m e (m₁ * 2 ^ e₁ * (m₂ * 2 ^ e₂)))
    (hlong : 2 ^ 52 ≤ m₁ * m₂) :
    UnpackedFloat.mul Format.binary64 (.finite .positive m₁ e₁ h₁) (.finite .positive m₂ e₂ h₂) =
      .finite .positive m e hc.pos := by
  have hvalue : (m₁ * 2 ^ e₁ * (m₂ * 2 ^ e₂) : ℚ) = ((m₁ * m₂ : ℕ) : ℚ) * 2 ^ (e₁ + e₂) := by
    rw [zpow_add₀ (by norm_num)]
    push_cast
    ring
  rw [hvalue] at hv
  have hpos : (0 : ℚ) < 2 ^ (e₁ + e₂) := by positivity
  refine roundWithAccuracy_eq hc ?_ (.inr ?_) hv .positive
  · rw [mul_div_assoc, div_self hpos.ne', mul_one]
    rfl
  · have hle : (2 ^ 52 : ℚ) ≤ ((m₁ * m₂ : ℕ) : ℚ) := by exact_mod_cast hlong
    rw [zpow_add₀ (by norm_num), mul_comm]
    exact mul_le_mul_of_nonneg_right (by exact_mod_cast hle) hpos.le

/-- What is left over of a quotient. -/
theorem shows_div {a b : ℕ} (hb : 0 < b) :
    Shows (.ofMantissaAndAccuracy (a / b) (accuracyOfFraction (a % b) b)) (a / b) := by
  have hb' : (0 : ℚ) < b := by exact_mod_cast hb
  have ha : (a : ℚ) = b * (a / b : ℕ) + (a % b : ℕ) := by exact_mod_cast (Nat.div_add_mod a b).symm
  have hr : ((a % b : ℕ) : ℚ) < b := by exact_mod_cast Nat.mod_lt a hb
  rw [accuracyOfFraction]
  split
  · rename_i h0
    rw [h0, Nat.cast_zero, add_zero] at ha
    show (a / b : ℚ) = (a / b : ℕ)
    rw [div_eq_iff hb'.ne', ha, mul_comm]
  · rename_i h0
    have hr' : (0 : ℚ) < (a % b : ℕ) := by exact_mod_cast Nat.pos_of_ne_zero h0
    rcases lt_trichotomy (2 * (a % b)) b with hlt | heq | hgt
    · have hhalf : (2 : ℚ) * (a % b : ℕ) < b := by exact_mod_cast hlt
      rw [Nat.compare_eq_lt.mpr hlt]
      show ((a / b : ℕ) : ℚ) < a / b ∧ (a / b : ℚ) < (a / b : ℕ) + 1 / 2
      rw [lt_div_iff₀ hb', div_lt_iff₀ hb']
      constructor <;> linarith
    · have hhalf : (2 : ℚ) * (a % b : ℕ) = b := by exact_mod_cast heq
      rw [Nat.compare_eq_eq.mpr heq]
      show (a / b : ℚ) = (a / b : ℕ) + 1 / 2
      rw [div_eq_iff hb'.ne']
      linarith
    · have hhalf : (b : ℚ) < 2 * (a % b : ℕ) := by exact_mod_cast hgt
      rw [Nat.compare_eq_gt.mpr hgt]
      show ((a / b : ℕ) : ℚ) + 1 / 2 < a / b ∧ (a / b : ℚ) < (a / b : ℕ) + 1
      rw [lt_div_iff₀ hb', div_lt_iff₀ hb']
      constructor <;> linarith

/-- Between powers of two a number lies as its mantissa does. -/
theorem zpow_log2_le (h₁ : 0 < m₁) : (2 : ℚ) ^ ((m₁.log2 : ℤ) + e) ≤ m₁ * 2 ^ e := by
  have hle : ((2 ^ m₁.log2 : ℕ) : ℚ) ≤ m₁ := by exact_mod_cast Nat.log2_self_le (Nat.ne_of_gt h₁)
  rw [zpow_add₀ (by norm_num), zpow_natCast]
  push_cast at hle
  gcongr

theorem lt_zpow_log2 : (m₁ * 2 ^ e : ℚ) < 2 ^ ((m₁.log2 : ℤ) + 1 + e) := by
  have hlt : (m₁ : ℚ) < ((2 ^ (m₁.log2 + 1) : ℕ) : ℚ) := by exact_mod_cast Nat.lt_log2_self
  rw [zpow_add₀ (by norm_num), ← Nat.cast_succ, zpow_natCast]
  push_cast at hlt
  gcongr

/-- **A quotient is rounded once:** enough bits of it are worked out. -/
theorem div_eq (hc : Canonical m e) (hv : RoundsTo m e (m₁ * 2 ^ e₁ / (m₂ * 2 ^ e₂))) :
    UnpackedFloat.div Format.binary64 (.finite .positive m₁ e₁ h₁) (.finite .positive m₂ e₂ h₂) =
      .finite .positive m e hc.pos := by
  set T := min (e₁ - e₂) (max ((m₁.log2 : ℤ) + 1 + e₁ - (m₂.log2 + 1 + e₂) - 53) (-1074)) with hT
  have hpos : (0 : ℚ) < m₂ := by exact_mod_cast h₂
  obtain ⟨k, hk⟩ := Int.le.dest (min_le_left (e₁ - e₂)
    (max ((m₁.log2 : ℤ) + 1 + e₁ - (m₂.log2 + 1 + e₂) - 53) (-1074)))
  rw [← hT] at hk
  have hdiv : UnpackedFloat.div Format.binary64 (.finite .positive m₁ e₁ h₁)
      (.finite .positive m₂ e₂ h₂) = roundWithAccuracy Format.binary64 .positive
        ((m₁ <<< (e₁ - e₂ - T).toNat) / m₂) T
        (accuracyOfFraction ((m₁ <<< (e₁ - e₂ - T).toNat) % m₂) m₂) := rfl
  rw [hdiv, show (e₁ - e₂ - T).toNat = k by omega]
  refine roundWithAccuracy_eq hc ?_ ?_ hv .positive
  · have hvalue : (m₁ * 2 ^ e₁ / (m₂ * 2 ^ e₂) / 2 ^ T : ℚ) = ((m₁ <<< k : ℕ) : ℚ) / m₂ := by
      have he₁ : e₁ = e₂ + (T + k) := by omega
      rw [Nat.shiftLeft_eq, he₁, zpow_add₀ (by norm_num), zpow_add₀ (by norm_num), zpow_natCast]
      push_cast
      field_simp
    rw [hvalue]
    exact shows_div h₂
  · rcases le_or_gt T (-1074) with hle | hgt
    · exact .inl hle
    · right
      have hden : (0 : ℚ) < m₂ * 2 ^ e₂ := by positivity
      rw [le_div_iff₀ hden]
      calc (2 : ℚ) ^ (T + 52) * (m₂ * 2 ^ e₂) ≤ 2 ^ (T + 52) * 2 ^ ((m₂.log2 : ℤ) + 1 + e₂) := by
            gcongr
            exact lt_zpow_log2.le
        _ = 2 ^ (T + 52 + ((m₂.log2 : ℤ) + 1 + e₂)) := (zpow_add₀ (by norm_num) _ _).symm
        _ ≤ 2 ^ ((m₁.log2 : ℤ) + e₁) := by
            refine zpow_le_zpow_right₀ (by norm_num) ?_
            omega
        _ ≤ m₁ * 2 ^ e₁ := zpow_log2_le h₁

/-! ## Decimals -/

/-- A decimal of any length. -/
theorem ofScientific_eq (hc : Canonical m e) {d : ℕ} {k : ℤ} (hd : 0 < d)
    (hv : RoundsTo m e (d * 10 ^ k)) (hmost : k ≤ 2048) (hleast : -2048 - d.log2 ≤ k) :
    UnpackedFloat.ofScientific Format.binary64 d k = .finite .positive m e hc.pos := by
  have hbits : (2 : ℤ) ^ Format.binary64.exponentBits = 2048 := by norm_num
  rw [UnpackedFloat.ofScientific, dif_neg (Nat.ne_of_gt hd), hbits, if_neg (by omega),
    if_neg (by omega)]
  split
  · rename_i hk
    obtain ⟨n, rfl⟩ := Int.eq_ofNat_of_zero_le hk
    refine mul_eq hc ?_ ?_
    · convert hv using 1
      have hshift : ((d <<< Format.binary64.mantissaBits : ℕ) : ℚ) = d * 2 ^ 53 := by
        rw [Nat.shiftLeft_eq]
        push_cast
        rfl
      have hbits : (2 : ℚ) ^ (-(Format.binary64.mantissaBits : ℤ)) = (2 ^ 53)⁻¹ := by
        rw [zpow_neg, zpow_natCast]
        rfl
      rw [hshift, hbits, Int.toNat_natCast, zpow_natCast]
      push_cast
      field_simp
    · rw [Nat.shiftLeft_eq]
      have hpow : 0 < 10 ^ (n : ℤ).toNat := by positivity
      calc 2 ^ 52 ≤ d * 2 ^ Format.binary64.mantissaBits :=
            Nat.le_trans (by decide) (Nat.le_mul_of_pos_left _ hd)
        _ ≤ d * 2 ^ Format.binary64.mantissaBits * 10 ^ (n : ℤ).toNat :=
            Nat.le_mul_of_pos_right _ hpow
  · rename_i hk
    obtain ⟨n, rfl⟩ : ∃ n : ℕ, k = -n := ⟨(-k).toNat, by omega⟩
    refine div_eq hc ?_
    convert hv using 1
    rw [neg_neg, Int.toNat_natCast, zpow_neg, zpow_natCast]
    push_cast
    field_simp

/-- `x` is the number `n`, in full length. -/
def IsNat (x : Float) (n : ℕ) : Prop :=
  ∃ m e h, x.toModel.unpack = .finite .positive m e h ∧ (m * 2 ^ e : ℚ) = n ∧ 2 ^ 52 ≤ m

/-- `m · 2 ^ e` is rounded to itself. -/
theorem roundsTo_self (m : ℕ) (e : ℤ) : RoundsTo m e (m * 2 ^ e) := by
  have hpos : (0 : ℚ) < 2 ^ e := by positivity
  have hbelow : 0 ≤ below m e := by
    rw [below]
    split <;> norm_num
  refine ⟨?_, ?_, fun _ => ⟨?_, ?_⟩⟩
  · exact mul_le_mul_of_nonneg_right (by linarith) hpos.le
  · exact mul_le_mul_of_nonneg_right (by linarith) hpos.le
  · exact mul_lt_mul_of_pos_right (by linarith) hpos
  · exact mul_lt_mul_of_pos_right (by linarith) hpos

section Natural

variable {d k : ℕ} (hd : 0 < d) (hk : d.log2 + k = 52)

include hd hk

/-- A number shifted to full length. -/
theorem canonical_of_log2 : Canonical (d * 2 ^ k) (-k) ∧ 2 ^ 52 ≤ d * 2 ^ k := by
  have hfull : 2 ^ 52 ≤ d * 2 ^ k := by
    rw [← hk, pow_add]
    exact Nat.mul_le_mul_right _ (Nat.log2_self_le (Nat.ne_of_gt hd))
  have hshort : d * 2 ^ k < 2 ^ 53 := by
    rw [show 53 = d.log2 + 1 + k by omega, pow_add]
    exact Nat.mul_lt_mul_of_pos_right Nat.lt_log2_self (by positivity)
  exact ⟨⟨by omega, hshort, by omega, by omega, .inl hfull⟩, hfull⟩

omit hd in
/-- Its target exponent asks for that shift. -/
theorem decreaseExponent_of_log2 :
    decreaseExponent d 0 (Format.binary64.targetExponent (totalExponent d 0)) =
      (d * 2 ^ k, -(k : ℤ)) := by
  have hk' : (0 - Format.binary64.targetExponent (totalExponent d 0)).toNat = k := by
    show (0 - max ((d.log2 : ℤ) + 1 + 0 - 53) (-1074)).toNat = k
    omega
  rw [decreaseExponent]
  simp only [hk', Nat.shiftLeft_eq]
  congr 1
  omega

/-- It is not rounded. -/
theorem ofUInt64_of_log2 (hlt : d < 2 ^ 53) (hc : Canonical (d * 2 ^ k) (-k))
    (hvalue : (((d * 2 ^ k : ℕ) : ℚ) * 2 ^ (-(k : ℤ))) = d) :
    UnpackedFloat.ofUInt64 Format.binary64 d.toUInt64 =
      .finite .positive (d * 2 ^ k) (-k) hc.pos := by
  have hnat : d.toUInt64.toNat = d := Nat.mod_eq_of_lt (by omega)
  have hsign : compare (d : ℤ) 0 = .gt := by
    rw [compare_gt_iff_gt]
    omega
  rw [UnpackedFloat.ofUInt64, hnat, UnpackedFloat.ofNat, UnpackedFloat.ofInt,
    UnpackedFloat.normalize, hsign]
  simp only [Int.toNat_natCast]
  rw [UnpackedFloat.round, decreaseExponent_of_log2 hk]
  refine roundWithAccuracy_eq hc (v := d) ?_ (.inr ?_) ?_ .positive
  · rw [← hvalue, mul_div_assoc, div_self (by positivity), mul_one]
    rfl
  · rw [← hvalue, zpow_add₀ (by norm_num), mul_comm]
    gcongr
    exact_mod_cast (canonical_of_log2 hd hk).2
  · rw [← hvalue]
    exact roundsTo_self _ _

end Natural

/-- A number below `2 ^ 53` is a double. -/
theorem isNat_toFloat {d : ℕ} (hd : 0 < d) (hlt : d < 2 ^ 53) : IsNat d.toUInt64.toFloat d := by
  have hlog := (Nat.log2_lt (Nat.ne_of_gt hd)).mpr hlt
  obtain ⟨k, hk⟩ : ∃ k, d.log2 + k = 52 := ⟨52 - d.log2, by omega⟩
  obtain ⟨hc, hfull⟩ := canonical_of_log2 hd hk
  have hvalue : (((d * 2 ^ k : ℕ) : ℚ) * 2 ^ (-(k : ℤ))) = d := by
    rw [zpow_neg, zpow_natCast]
    push_cast
    field_simp
  refine ⟨d * 2 ^ k, -k, hc.pos, ?_, hvalue, hfull⟩
  show (Float.Model.pack (UnpackedFloat.ofUInt64 Format.binary64 d.toUInt64)).unpack = _
  rw [ofUInt64_of_log2 hd hk hlt hc hvalue]
  exact unpack_pack_finite false hc

/-- The powers of ten in the table are what they are said to be. -/
theorem ofFloat_powersOfTen (i : Fin 23) :
    ofFloat Float.exactlyRepresentablePowersOfTen[i] =
      .finite false (10 ^ (i : ℕ) * 2 ^ 52 / 2 ^ (10 ^ (i : ℕ)).log2) ((10 ^ (i : ℕ)).log2 - 52) ∧
    2 ^ (10 ^ (i : ℕ)).log2 ∣ 10 ^ (i : ℕ) * 2 ^ 52 := by
  revert i
  decide

theorem isNat_powersOfTen (i : Fin 23) :
    IsNat Float.exactlyRepresentablePowersOfTen[i] (10 ^ (i : ℕ)) := by
  obtain ⟨hvalue, q, hq⟩ := ofFloat_powersOfTen i
  have hlog : 0 < 2 ^ (10 ^ (i : ℕ)).log2 := by positivity
  rw [hq, Nat.mul_div_cancel_left _ hlog] at hvalue
  have hfull : 2 ^ 52 ≤ q := by
    have hle := Nat.log2_self_le (n := 10 ^ (i : ℕ)) (by positivity)
    refine Nat.le_of_mul_le_mul_left ?_ hlog
    rw [← hq]
    exact Nat.mul_le_mul_right _ hle
  refine ⟨q, ((10 ^ (i : ℕ)).log2 : ℤ) - 52, by omega, ?_, ?_, hfull⟩
  · rw [unpack_toModel, hvalue, unpacked, dif_pos (by omega)]
    rfl
  · have hq' : ((10 ^ (i : ℕ) : ℕ) : ℚ) * 2 ^ 52 = 2 ^ (10 ^ (i : ℕ)).log2 * q := by
      exact_mod_cast hq
    rw [zpow_sub₀ (by norm_num), zpow_natCast, ← mul_div_assoc, mul_comm (q : ℚ), ← hq',
      mul_div_assoc]
    norm_num

/-- **A decimal is read as the double it is rounded to.** -/
theorem float_ofScientific_eq (hc : Canonical m e) {d : ℕ} {k : ℤ} (hd : 0 < d)
    (hv : RoundsTo m e (d * 10 ^ k)) (hmost : k ≤ 2048) (hleast : -2048 - d.log2 ≤ k) :
    Float.ofScientific d (k < 0) k.natAbs = (finite false m e).toFloat := by
  have hresult : (finite false m e).toFloat = .ofModel (.pack (.finite .positive m e hc.pos)) := by
    rw [toFloat, unpacked, dif_pos hc.pos]
    rfl
  rw [hresult, Float.ofScientific]
  split
  · -- both parts are doubles
    rename_i hfast
    obtain ⟨m₁, e₁, h₁, hx, hd', hfull⟩ := isNat_toFloat hd hfast.1
    obtain ⟨m₂, e₂, h₂, hy, hten, hfull'⟩ := isNat_powersOfTen ⟨k.natAbs, by omega⟩
    simp only [Fin.getElem_fin] at hy
    push_cast at hten
    split
    · rename_i hk
      obtain ⟨n, rfl⟩ : ∃ n : ℕ, k = -n := ⟨k.natAbs, by have := of_decide_eq_true hk; omega⟩
      show Float.ofModel (.pack (UnpackedFloat.div Format.binary64 _ _)) = _
      rw [hx, hy, div_eq hc]
      rwa [hd', hten, Int.natAbs_neg, Int.natAbs_natCast, div_eq_mul_inv, ← zpow_natCast,
        ← zpow_neg]
    · rename_i hk
      obtain ⟨n, rfl⟩ : ∃ n : ℕ, k = n :=
        ⟨k.natAbs, by have := mt (decide_eq_true_iff (p := k < 0)).mpr hk; omega⟩
      show Float.ofModel (.pack (UnpackedFloat.mul Format.binary64 _ _)) = _
      rw [hx, hy, mul_eq hc]
      · rwa [hd', hten, Int.natAbs_natCast, ← zpow_natCast]
      · exact hfull.trans (Nat.le_mul_of_pos_right _ h₂)
  · have hk :
        (if decide (k < 0) = true then Int.negOfNat k.natAbs else Int.ofNat k.natAbs) = k := by
      rw [Int.negOfNat_eq]
      simp only [decide_eq_true_iff, Int.ofNat_eq_natCast]
      split <;> omega
    simp only [hk]
    rw [Float.Model.ofScientific, ofScientific_eq hc hd hv hmost hleast]

/-! ## Signs -/

/-- A double with the other sign. -/
theorem neg_toFloat (hc : Canonical m e) :
    -(finite false m e).toFloat = (finite true m e).toFloat := by
  show Float.ofModel (.pack (Float.Model.pack (finite false m e).unpacked).unpack.neg) = _
  rw [toFloat, unpacked, dif_pos hc.pos, unpack_pack_finite false hc, unpacked, dif_pos hc.pos]
  rfl

/-- Finite doubles are finite. -/
theorem isFinite_toFloat (negative : Bool) (hc : Canonical m e) :
    (finite negative m e).toFloat.isFinite = true := by
  show (Float.Model.pack (finite negative m e).unpacked).unpack.isFinite = true
  rw [unpacked, dif_pos hc.pos, unpack_pack_finite negative hc]
  rfl

end Binary

end SplitQP
