import Mathlib.Data.Rat.Lemmas
import Mathlib.Algebra.Order.Field.Power
import Mathlib.Tactic.Linarith
import Mathlib.Tactic.Positivity
import Mathlib.Tactic.Ring
import SplitQP.Proofs.Number.Double
/-!
# Rounding to the nearest double

An operation on doubles has the first bits of its exact result, and shows
with two more what the others come to (`Shows`). It drops bits down to the
length of a double and rounds, which may give one bit too many. The outcome
is the double that the exact result is nearest to, the even one of two
(`roundWithAccuracy_eq`), also where the doubles below it are closer to each
other than those above and where they are all equally far apart.
-/

namespace SplitQP

open Float.Model Float.Model.UnpackedFloat

namespace Binary

/-! ## Two further bits -/

/-- **What a mantissa with two further bits shows of a number:** its integer part, and whether
the rest is nothing, less than half, half, or more than half. -/
def Shows (em : ExtendedMantissa) (w : ℚ) : Prop :=
  match em.roundBit, em.stickyBit with
  | false, false => w = em.mantissa
  | false, true => em.mantissa < w ∧ w < em.mantissa + 1 / 2
  | true, false => w = em.mantissa + 1 / 2
  | true, true => em.mantissa + 1 / 2 < w ∧ w < em.mantissa + 1

variable {em : ExtendedMantissa} {w : ℚ}

theorem Shows.bounds (h : Shows em w) : em.mantissa ≤ w ∧ w < em.mantissa + 1 := by
  obtain ⟨M, r, s⟩ := em
  cases r <;> cases s <;> simp only [Shows] at h ⊢ <;> constructor <;> linarith

/-- Dropping a bit. -/
theorem Shows.half (h : Shows em w) : Shows em.shiftRightOne (w / 2) := by
  obtain ⟨M, r, s⟩ := em
  have hM : (M : ℚ) = 2 * (M / 2 : ℕ) + (M % 2 : ℕ) := by
    exact_mod_cast (Nat.div_add_mod M 2).symm
  rw [ExtendedMantissa.shiftRightOne]
  have hbit : ((1 : ℕ) != 0) = true := rfl
  rcases Nat.mod_two_eq_zero_or_one M with hodd | hodd <;> rw [hodd] at hM <;>
    cases r <;> cases s <;> simp only [Shows, hodd, hbit] at h ⊢ <;> norm_num at hM ⊢ <;>
    first
      | linarith
      | constructor <;> linarith

theorem Shows.shiftRight (h : Shows em w) (n : ℕ) : Shows (em >>> n) (w / 2 ^ n) := by
  induction n with
  | zero => simpa [HShiftRight.hShiftRight, Nat.repeat] using h
  | succ n ih =>
    rw [pow_succ, ← div_div]
    exact ih.half

/-- `w` is nearer to `m` than to any other integer, or `m` is the even one of two. -/
structure Nearest (m : ℕ) (w : ℚ) : Prop where
  low : m - 1 / 2 ≤ w
  high : w ≤ m + 1 / 2
  odd : m % 2 = 1 → m - 1 / 2 < w ∧ w < m + 1 / 2

/-- **Two further bits are enough to round.** -/
theorem Shows.roundedMantissa_eq {m : ℕ} (h : Shows em w) (hm : Nearest m w) :
    em.roundedMantissa = m := by
  obtain ⟨M, r, s⟩ := em
  obtain ⟨hlow, hhigh, hodd⟩ := hm
  have hle : ∀ k : ℕ, (m : ℚ) < k + 1 → m ≤ k := fun k hk =>
    Nat.lt_succ_iff.mp (by exact_mod_cast hk)
  have hge : ∀ k : ℕ, (k : ℚ) < m + 1 → k ≤ m := fun k hk =>
    Nat.lt_succ_iff.mp (by exact_mod_cast hk)
  cases r <;> cases s <;> simp only [Shows] at h <;>
    simp only [ExtendedMantissa.roundedMantissa, ExtendedMantissa.accuracy,
      Accuracy.roundToNearestEven]
  · exact le_antisymm (hge M (by linarith)) (hle M (by linarith))
  · exact le_antisymm (hge M (by linarith)) (hle M (by linarith))
  · -- halfway between two, of which the even one is taken
    have hcases : m = M ∨ m = M + 1 := by
      have h1 := hle (M + 1) (by push_cast; linarith)
      have h2 := hge M (by linarith)
      omega
    have heven : m % 2 = 0 := by
      by_contra hne
      obtain ⟨h1, h2⟩ := hodd (by omega)
      rcases hcases with rfl | rfl
      · linarith
      · push_cast at h1
        linarith
    omega
  · exact le_antisymm (hge (M + 1) (by push_cast; linarith)) (hle (M + 1) (by push_cast; linarith))

/-! ## Which double a number is rounded to -/

/-- How far below `m · 2 ^ e` numbers are still rounded to it. -/
def below (m : ℕ) (e : ℤ) : ℚ := if m = 2 ^ 52 ∧ -1074 < e then 1 / 4 else 1 / 2

/-- **The numbers that are rounded to `m · 2 ^ e`.** -/
structure RoundsTo (m : ℕ) (e : ℤ) (v : ℚ) : Prop where
  low : (m - below m e) * 2 ^ e ≤ v
  high : v ≤ (m + 1 / 2) * 2 ^ e
  odd : m % 2 = 1 → (m - 1 / 2) * 2 ^ e < v ∧ v < (m + 1 / 2) * 2 ^ e

variable {m M : ℕ} {e E : ℤ} {v : ℚ} {acc : Accuracy}

theorem shiftToTargetExponent_eq (M : ℕ) (E : ℤ) (acc : Accuracy) :
    shiftToTargetExponent Format.binary64 M E acc =
      (ExtendedMantissa.ofMantissaAndAccuracy M acc >>>
        (max ((M.log2 : ℤ) + 1 + E - 53) (-1074) - E).toNat,
        E + (max ((M.log2 : ℤ) + 1 + E - 53) (-1074) - E).toNat) := rfl

theorem mantissa_ofMantissaAndAccuracy :
    (ExtendedMantissa.ofMantissaAndAccuracy M acc).mantissa = M := by
  cases acc with
  | exact => rfl
  | inexact o => cases o <;> rfl

/-- Where the leading bit of a number is. -/
theorem Shows.total_bounds (h : Shows (.ofMantissaAndAccuracy M acc) (v / 2 ^ E)) :
    v < 2 ^ ((M.log2 : ℤ) + 1 + E) ∧ (M ≠ 0 → 2 ^ ((M.log2 : ℤ) + E) ≤ v) := by
  have hE : (0 : ℚ) < 2 ^ E := by positivity
  obtain ⟨hlow, hhigh⟩ := h.bounds
  rw [mantissa_ofMantissaAndAccuracy] at hlow hhigh
  rw [le_div_iff₀ hE] at hlow
  rw [div_lt_iff₀ hE] at hhigh
  have hpow : ∀ k : ℕ, (2 : ℚ) ^ ((k : ℤ) + E) = ((2 ^ k : ℕ) : ℚ) * 2 ^ E := fun k => by
    rw [zpow_add₀ (by norm_num), zpow_natCast]
    push_cast
    rfl
  constructor
  · have hlt : ((M + 1 : ℕ) : ℚ) ≤ ((2 ^ (M.log2 + 1) : ℕ) : ℚ) := by
      exact_mod_cast Nat.lt_log2_self
    calc v < (M + 1) * 2 ^ E := hhigh
      _ = ((M + 1 : ℕ) : ℚ) * 2 ^ E := by push_cast; rfl
      _ ≤ ((2 ^ (M.log2 + 1) : ℕ) : ℚ) * 2 ^ E := by gcongr
      _ = 2 ^ ((M.log2 : ℤ) + 1 + E) := by rw [← hpow]; push_cast; rfl
  · intro hM
    have hle : ((2 ^ M.log2 : ℕ) : ℚ) ≤ (M : ℚ) := by exact_mod_cast Nat.log2_self_le hM
    calc (2 : ℚ) ^ ((M.log2 : ℤ) + E) = ((2 ^ M.log2 : ℕ) : ℚ) * 2 ^ E := hpow _
      _ ≤ M * 2 ^ E := by gcongr
      _ ≤ v := hlow

/-- A double is as long as it may be. -/
theorem Canonical.target (h : Canonical m e) : max ((m.log2 : ℤ) + 1 + e - 53) (-1074) = e := by
  have hlog := log2_of_full h
  have hlt := (Nat.log2_lt (Nat.ne_of_gt h.pos)).mpr h.lt
  have hleast := h.least
  rcases h.full with hfull | rfl
  · have := hlog.mpr hfull
    omega
  · by_cases hfull : 2 ^ 52 ≤ m
    · have := hlog.mpr hfull
      omega
    · omega

/-- One shift and the rounding behind it. -/
theorem exists_shift {r : ℕ} {T : ℤ} (hT : max ((M.log2 : ℤ) + 1 + E - 53) (-1074) = T)
    (hE : E ≤ T) (hshows : Shows (.ofMantissaAndAccuracy M acc) (v / 2 ^ E))
    (hr : Nearest r (v / 2 ^ T)) :
    ∃ em, shiftToTargetExponent Format.binary64 M E acc = (em, T) ∧ em.roundedMantissa = r := by
  obtain ⟨k, rfl⟩ := Int.le.dest hE
  have hk : (E + (k : ℤ) - E).toNat = k := by omega
  refine ⟨ExtendedMantissa.ofMantissaAndAccuracy M acc >>> k, ?_, ?_⟩
  · rw [shiftToTargetExponent_eq, hT, hk]
  · refine (hshows.shiftRight k).roundedMantissa_eq ?_
    rwa [div_div, ← zpow_natCast, ← zpow_add₀ (by norm_num)]

/-- Both shifts together. -/
theorem roundWithAccuracy_of_shifts {em em' : ExtendedMantissa} {T : ℤ} (s : Sign) (hm : 0 < m)
    (hfirst : shiftToTargetExponent Format.binary64 M E acc = (em, T))
    (hsecond : shiftToTargetExponent Format.binary64 em.roundedMantissa T .exact = (em', e))
    (hmantissa : em'.mantissa = m) :
    roundWithAccuracy Format.binary64 s M E acc = .finite s m e hm := by
  subst hmantissa
  rw [roundWithAccuracy, hfirst]
  dsimp only
  rw [dif_neg (by rw [hsecond]; exact Nat.ne_of_gt hm)]
  congr 1
  · rw [hsecond]
  · rw [hsecond]

/-! ## The double that is found -/

theorem RoundsTo.lt (h : RoundsTo m e v) (hc : Canonical m e) : v < 2 ^ (e + 53) := by
  have hm : (m : ℚ) + 1 ≤ 2 ^ 53 := by exact_mod_cast hc.lt
  have he : (0 : ℚ) < 2 ^ e := by positivity
  calc v ≤ (m + 1 / 2) * 2 ^ e := h.high
    _ < 2 ^ 53 * 2 ^ e := by gcongr; linarith
    _ = 2 ^ (e + 53) := by rw [zpow_add₀ (by norm_num), mul_comm]; norm_num

/-- A number that is rounded to a double is nearest to it in units of its last place, unless it
lies below a power of two. -/
theorem RoundsTo.nearest (h : RoundsTo m e v) (hm : m = 2 ^ 52 → -1074 < e → 2 ^ (e + 52) ≤ v) :
    Nearest m (v / 2 ^ e) := by
  have he : (0 : ℚ) < 2 ^ e := by positivity
  refine ⟨?_, ?_, fun hodd => ?_⟩
  · rw [le_div_iff₀ he]
    by_cases hcase : m = 2 ^ 52 ∧ -1074 < e
    · have hle := hm hcase.1 hcase.2
      rw [zpow_add₀ (by norm_num)] at hle
      rw [hcase.1]
      push_cast
      norm_num at hle ⊢
      linarith
    · have hlow := h.low
      rwa [below, if_neg hcase] at hlow
  · rw [div_le_iff₀ he]
    exact h.high
  · rw [lt_div_iff₀ he, div_lt_iff₀ he]
    exact h.odd hodd

/-- What is rounded to a double that is not among the smallest lies in its binade, or just below
that. -/
theorem RoundsTo.le (h : RoundsTo m e v) (hc : Canonical m e) (he : -1074 < e) :
    2 ^ (e + 52) ≤ v ∨ m = 2 ^ 52 ∧ (2 ^ 52 - 1 / 4) * 2 ^ e ≤ v := by
  have hfull : 2 ^ 52 ≤ m := hc.full.resolve_right (ne_of_gt he)
  have hlow := h.low
  rcases Nat.eq_or_lt_of_le hfull with rfl | hlt
  · rw [below, if_pos ⟨rfl, he⟩] at hlow
    push_cast at hlow
    exact .inr ⟨rfl, hlow⟩
  · left
    rw [below, if_neg (by omega)] at hlow
    have hm : (2 ^ 52 : ℚ) + 1 ≤ m := by exact_mod_cast hlt
    have he : (0 : ℚ) < 2 ^ e := by positivity
    calc (2 : ℚ) ^ (e + 52) = 2 ^ 52 * 2 ^ e := by
          rw [zpow_add₀ (by norm_num), mul_comm]
          norm_num
      _ ≤ (m - 1 / 2) * 2 ^ e := by gcongr; linarith
      _ ≤ v := hlow

theorem zpow_two_lt {a b : ℤ} : (2 : ℚ) ^ a < 2 ^ b ↔ a < b :=
  zpow_lt_zpow_iff_right₀ (by norm_num)

/-! ## The two shifts -/

/-- **Where the first shift ends:** at the exponent of the binade the number is in, or at the
least exponent. It does not go up, given the first 53 bits of the number or all bits down to
the last place of any double. -/
theorem Shows.target {T : ℤ} (h : Shows (.ofMantissaAndAccuracy M acc) (v / 2 ^ E))
    (hfine : E ≤ -1074 ∨ 2 ^ (E + 52) ≤ v) (hleast : -1074 ≤ T) (hlt : v < 2 ^ (T + 53))
    (hle : 2 ^ (T + 52) ≤ v ∨ T = -1074) :
    max ((M.log2 : ℤ) + 1 + E - 53) (-1074) = T ∧ E ≤ T := by
  obtain ⟨hbelow, habove⟩ := h.total_bounds
  have hE : E ≤ T := by
    rcases hfine with hE | hE
    · exact hE.trans hleast
    · have := zpow_two_lt.mp (hE.trans_lt hlt)
      omega
  -- the leading bit is there, or the number is below the last place of any double
  have hupper : (M.log2 : ℤ) + 1 + E - 53 ≤ T := by
    by_cases hM : M = 0
    · rw [hM, Nat.log2_zero]
      omega
    · have := zpow_two_lt.mp ((habove hM).trans_lt hlt)
      omega
  refine ⟨?_, hE⟩
  rcases hle with hle | rfl
  · have := zpow_two_lt.mp (hle.trans_lt hbelow)
    omega
  · omega

/-- A double is not shifted any further. -/
theorem Canonical.shiftToTargetExponent_eq_self (h : Canonical m e) :
    shiftToTargetExponent Format.binary64 m e .exact = (⟨m, false, false⟩, e) := by
  rw [shiftToTargetExponent_eq, h.target, Int.sub_self]
  exact congrArg _ (Int.add_zero e)

/-- One bit too many is dropped. -/
theorem shiftToTargetExponent_carry (he : -1074 < e) :
    shiftToTargetExponent Format.binary64 (2 ^ 53) (e - 1) .exact =
      (⟨2 ^ 52, false, false⟩, e) := by
  have hlog : (2 ^ 53 : ℕ).log2 = 53 := Nat.log2_two_pow
  have hk : (max (((2 ^ 53 : ℕ).log2 : ℤ) + 1 + (e - 1) - 53) (-1074) - (e - 1)).toNat = 1 := by
    rw [hlog]
    omega
  rw [shiftToTargetExponent_eq, hk]
  refine Prod.ext rfl ?_
  simp

/-- What is rounded to a power of two from below it is nearest to that in units of the binade
below. -/
theorem nearest_carry (hlow : (2 ^ 52 - 1 / 4) * 2 ^ e ≤ v) (hlt : v < 2 ^ (e - 1 + 53)) :
    Nearest (2 ^ 53) (v / 2 ^ (e - 1)) := by
  have hpos : (0 : ℚ) < 2 ^ (e - 1) := by positivity
  have hdouble : (2 : ℚ) ^ e = 2 * 2 ^ (e - 1) := by
    rw [← zpow_one_add₀ (by norm_num)]
    congr 1
    omega
  rw [zpow_add₀ (by norm_num)] at hlt
  rw [hdouble] at hlow
  push_cast
  refine ⟨?_, ?_, fun hodd => by omega⟩
  · rw [le_div_iff₀ hpos]
    push_cast
    linarith
  · rw [div_le_iff₀ hpos]
    norm_num at hlt ⊢
    linarith

/-- **Rounding finds the double** that a number is rounded to, given the first 53 bits of the
number, or all bits down to the last place of any double. -/
theorem roundWithAccuracy_eq (hc : Canonical m e)
    (hshows : Shows (.ofMantissaAndAccuracy M acc) (v / 2 ^ E))
    (hfine : E ≤ -1074 ∨ 2 ^ (E + 52) ≤ v) (hv : RoundsTo m e v) (s : Sign) :
    roundWithAccuracy Format.binary64 s M E acc = .finite s m e hc.pos := by
  by_cases hcase : 2 ^ (e + 52) ≤ v ∨ e = -1074
  · -- rounded in the binade of the result
    obtain ⟨hT, hE⟩ := hshows.target hfine hc.least (hv.lt hc) hcase
    obtain ⟨em, hshift, hround⟩ := exists_shift hT hE hshows
      (hv.nearest fun _ he => hcase.resolve_right (ne_of_gt he))
    have hsecond : shiftToTargetExponent Format.binary64 em.roundedMantissa e .exact =
        (⟨m, false, false⟩, e) := by
      rw [hround]
      exact hc.shiftToTargetExponent_eq_self
    exact roundWithAccuracy_of_shifts s hc.pos hshift hsecond rfl
  · -- rounded up to a power of two, from the binade below it
    rw [not_or, not_le] at hcase
    obtain ⟨hlt, hne⟩ := hcase
    have he : -1074 < e := lt_of_le_of_ne hc.least (Ne.symm hne)
    obtain ⟨rfl, hlow⟩ := (hv.le hc he).resolve_left (not_le.mpr hlt)
    have hbinade : 2 ^ (e - 1 + 52) ≤ v := by
      refine le_trans ?_ hlow
      rw [show e - 1 + 52 = 51 + e by ring, zpow_add₀ (by norm_num)]
      gcongr
      norm_num
    rw [show e + 52 = e - 1 + 53 by ring] at hlt
    obtain ⟨hT, hE⟩ := hshows.target hfine (by omega) hlt (.inl hbinade)
    obtain ⟨em, hshift, hround⟩ := exists_shift hT hE hshows (nearest_carry hlow hlt)
    have hsecond : shiftToTargetExponent Format.binary64 em.roundedMantissa (e - 1) .exact =
        (⟨2 ^ 52, false, false⟩, e) := by
      rw [hround]
      exact shiftToTargetExponent_carry he
    exact roundWithAccuracy_of_shifts s hc.pos hshift hsecond rfl

end Binary

end SplitQP
