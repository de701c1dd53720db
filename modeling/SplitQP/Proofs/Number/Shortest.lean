import Mathlib.Data.Nat.Digits.Defs
import SplitQP.Number.Shortest
import SplitQP.Proofs.Number.FromDecimal
/-!
# The shortest decimal is a decimal of the double

Every double has a decimal of seventeen digits in its interval, so the
search for the shortest one finds some (`hits_of_double`). Whatever it
finds is rounded to the double (`ofPositive_spec`).
-/

namespace SplitQP

/-! ## Powers and quotients -/

theorem pow2_eq (k : ℕ) : pow2 k = 2 ^ k := rfl

theorem pow10_eq (k : ℕ) : pow10 k = 10 ^ k := rfl

/-- A power with a sign, as a quotient of two without. -/
theorem pow_toNat_div (b : ℚ) (k : ℤ) : b ^ k.toNat / b ^ (-k).toNat = b ^ k := by
  obtain ⟨n, rfl | rfl⟩ := Int.eq_nat_or_neg k
  · rw [Int.toNat_natCast, Int.toNat_neg_natCast, pow_zero, div_one, zpow_natCast]
  · rw [neg_neg, Int.toNat_natCast, Int.toNat_neg_natCast, pow_zero, zpow_neg, zpow_natCast,
      one_div]

/-- **Rounding is off by half at most.** -/
theorem abs_roundDiv_sub_le (tie : Tie) {a b : ℕ} (hb : 0 < b) :
    |(roundDiv tie a b : ℚ) - a / b| ≤ 1 / 2 := by
  have hb' : (0 : ℚ) < b := by exact_mod_cast hb
  have ha : (a / b : ℚ) = (a / b : ℕ) + (a % b : ℕ) / b := by
    rw [add_div' _ _ _ hb'.ne']
    congr 1
    exact_mod_cast (Nat.div_add_mod' a b).symm
  have hr : (0 : ℚ) ≤ (a % b : ℕ) / b := by positivity
  have hr' : ((a % b : ℕ) / b : ℚ) < 1 := by
    rw [div_lt_one hb']
    exact_mod_cast Nat.mod_lt a hb
  rw [ha, abs_sub_le_iff, roundDiv.eq_def]
  dsimp only
  split_ifs with hlt hgt
  · have hhalf : ((a % b : ℕ) / b : ℚ) < 1 / 2 := by
      rw [div_lt_iff₀ hb', one_div, inv_mul_eq_div, lt_div_iff₀' (by norm_num)]
      exact_mod_cast hlt
    constructor <;> linarith
  · have hhalf : (1 / 2 : ℚ) < (a % b : ℕ) / b := by
      rw [lt_div_iff₀ hb', one_div, inv_mul_eq_div, div_lt_iff₀' (by norm_num)]
      exact_mod_cast hgt
    push_cast
    constructor <;> linarith
  · have hhalf : ((a % b : ℕ) / b : ℚ) = 1 / 2 := by
      rw [div_eq_iff hb'.ne', one_div, inv_mul_eq_div, eq_div_iff (by norm_num), mul_comm]
      exact_mod_cast (by omega : 2 * (a % b) = b)
    cases tie with
    | toEven =>
      rcases Nat.mod_two_eq_zero_or_one (a / b) with h | h <;> simp only [h] <;> push_cast <;>
        constructor <;> linarith
    | up =>
      push_cast
      constructor <;> linarith

namespace Decimal

/-- As many digits as a number has are enough for it. -/
theorem lt_pow_length (n : ℕ) : n < 10 ^ length n :=
  (Nat.length_toDigits_le_iff (by decide) Nat.length_toDigits_pos).mp le_rfl

/-- A number has no more digits than it needs. -/
theorem pow_length_le {n : ℕ} (hn : 0 < n) : 10 ^ (length n - 1) ≤ n := by
  rcases Nat.eq_zero_or_pos (length n - 1) with h | h
  · rwa [h, pow_zero]
  · by_contra hlt
    have := (Nat.length_toDigits_le_iff (b := 10) (by decide) h).mpr (not_le.mp hlt)
    rw [length, digits] at h this
    omega

theorem length_pos (n : ℕ) : 0 < length n := Nat.length_toDigits_pos

/-- **No more than the number** is the power of ten of its decade. -/
theorem pow_decade_le {num den : ℕ} (hnum : 0 < num) (hden : 0 < den) :
    (10 : ℚ) ^ decade num den ≤ num / den := by
  have hden' : (0 : ℚ) < den := by exact_mod_cast hden
  have hnum' : (0 : ℚ) < num := by exact_mod_cast hnum
  rw [decade]
  split
  · rename_i hle
    have hq : 0 < num / den := Nat.div_pos hle hden
    have hlen := length_pos (num / den)
    have hexp : ((length (num / den) : ℤ) - 1) = ((length (num / den) - 1 : ℕ) : ℤ) := by omega
    rw [hexp, zpow_natCast, le_div_iff₀ hden']
    have h := Nat.mul_le_mul_right den (pow_length_le hq)
    exact_mod_cast h.trans (Nat.div_mul_le_self num den)
  · rename_i hlt
    rw [not_le] at hlt
    have hc : den ≤ 10 ^ length ((den + num - 1) / num - 1) * num := by
      have h1 := lt_pow_length ((den + num - 1) / num - 1)
      have h2 : den ≤ (den + num - 1) / num * num := by
        have := Nat.lt_div_mul_add (a := den + num - 1) hnum
        omega
      exact h2.trans (Nat.mul_le_mul_right _ (by omega))
    rw [Int.negOfNat_eq, Int.ofNat_eq_natCast, zpow_neg, zpow_natCast, le_div_iff₀ hden',
      inv_mul_le_iff₀ (by positivity)]
    exact_mod_cast hc

end Decimal

namespace Shortest

open Binary

/-! ## The interval of a double -/

namespace Interval

variable {m num den : ℕ} {e : ℤ}

/-- A number in the unit of an interval. -/
theorem unit_div (n : ℕ) :
    ((n * pow2 (e - 2).toNat : ℕ) : ℚ) / (pow2 (2 - e).toNat : ℕ) = n / 4 * 2 ^ e := by
  have hunit := pow_toNat_div 2 (e - 2)
  rw [neg_sub] at hunit
  rw [pow2_eq, pow2_eq]
  push_cast
  rw [mul_div_assoc, hunit, zpow_sub₀ (by norm_num)]
  norm_num
  ring

theorem den_pos (m : ℕ) (e : ℤ) : 0 < (Interval.of m e).den := Nat.two_pow_pos _

theorem value_div (m : ℕ) (e : ℤ) :
    ((Interval.of m e).value : ℚ) / (Interval.of m e).den = m * 2 ^ e := by
  refine (unit_div (4 * m)).trans ?_
  push_cast
  ring

theorem high_div (m : ℕ) (e : ℤ) :
    ((Interval.of m e).high : ℚ) / (Interval.of m e).den = (m + 1 / 2) * 2 ^ e := by
  refine (unit_div (4 * m + 2)).trans ?_
  push_cast
  ring

theorem low_div (hm : 0 < m) (e : ℤ) :
    ((Interval.of m e).low : ℚ) / (Interval.of m e).den = (m - below m e) * 2 ^ e := by
  refine (unit_div _).trans ?_
  rw [below, show pow2 52 = 2 ^ 52 from rfl]
  split
  · rw [Nat.cast_sub (by omega)]
    push_cast
    ring
  · rw [Nat.cast_sub (by omega)]
    push_cast
    ring

variable {i : Interval}

/-- Within an interval, as rational numbers. -/
theorem contains_iff (hi : 0 < i.den) (hden : 0 < den) :
    i.contains num den = true ↔
      if i.closed then (i.low / i.den : ℚ) ≤ num / den ∧ (num / den : ℚ) ≤ i.high / i.den
      else (i.low / i.den : ℚ) < num / den ∧ (num / den : ℚ) < i.high / i.den := by
  have hi' : (0 : ℚ) < i.den := by exact_mod_cast hi
  have hden' : (0 : ℚ) < den := by exact_mod_cast hden
  rw [contains, div_le_div_iff₀ hi' hden', div_le_div_iff₀ hden' hi', div_lt_div_iff₀ hi' hden',
    div_lt_div_iff₀ hden' hi']
  split
  · rw [Bool.and_eq_true, decide_eq_true_iff, decide_eq_true_iff]
    norm_cast
  · rw [Bool.and_eq_true, decide_eq_true_iff, decide_eq_true_iff]
    norm_cast

/-- **The decimals in the interval of a double** are rounded to it. -/
theorem roundsTo (hm : 0 < m) (hden : 0 < den)
    (h : (Interval.of m e).contains num den = true) : RoundsTo m e (num / den) := by
  rw [contains_iff (den_pos m e) hden, low_div hm, high_div] at h
  have hclosed : (Interval.of m e).closed = (m % 2 == 0) := rfl
  rw [hclosed] at h
  rcases Nat.mod_two_eq_zero_or_one m with heven | hodd
  · rw [heven, if_pos (by decide)] at h
    exact ⟨h.1, h.2, fun hodd => by omega⟩
  · rw [hodd, if_neg (by decide)] at h
    have hbelow : below m e = 1 / 2 := if_neg (by omega)
    exact ⟨h.1.le, h.2.le, fun _ => ⟨hbelow ▸ h.1, h.2⟩⟩

/-- What is near enough to a double is in its interval. -/
theorem contains_of_near (hm : 0 < m) (hden : 0 < den)
    (h : |(num / den : ℚ) - m * 2 ^ e| < below m e * 2 ^ e) :
    (Interval.of m e).contains num den = true := by
  have hpos : (0 : ℚ) < 2 ^ e := by positivity
  have hbelow : below m e ≤ 1 / 2 := by
    rw [below]
    split <;> norm_num
  obtain ⟨hlow, hhigh⟩ := abs_lt.mp h
  have hle : below m e * 2 ^ e ≤ 1 / 2 * 2 ^ e := mul_le_mul_of_nonneg_right hbelow hpos.le
  have hinside :
      (m - below m e) * 2 ^ e < (num / den : ℚ) ∧ (num / den : ℚ) < (m + 1 / 2) * 2 ^ e := by
    constructor <;> linarith
  rw [contains_iff (den_pos m e) hden, low_div hm, high_div]
  split
  · exact ⟨hinside.1.le, hinside.2.le⟩
  · exact hinside

end Interval

/-! ## The search -/

variable {tie : Tie} {m : ℕ} {e : ℤ}

/-- `d · 10 ^ k` is in the interval. -/
structure Hits (i : Interval) (d : ℕ) (k : ℤ) : Prop where
  pos : 0 < d
  inside : i.contains (quotient d k).1 (quotient d k).2 = true

theorem quotient_div (d : ℕ) (k : ℤ) :
    ((quotient d k).1 : ℚ) / (quotient d k).2 = d * 10 ^ k := by
  rw [quotient]
  simp only [pow10_eq]
  push_cast
  rw [mul_div_assoc, pow_toNat_div]

theorem quotient_den_pos (d : ℕ) (k : ℤ) : 0 < (quotient d k).2 := Nat.pow_pos (by decide)

theorem inUnits_div (num den : ℕ) (k : ℤ) :
    ((Decimal.inUnits num den k).1 : ℚ) / (Decimal.inUnits num den k).2 = num / den / 10 ^ k := by
  rw [Decimal.inUnits, ← pow_toNat_div, div_div_div_eq]
  simp only [pow10_eq]
  push_cast
  rfl

/-- A hit on a grid is a hit. -/
theorem hits_of_onGrid {i : Interval} {k : ℤ} {d : ℕ} (h : onGrid tie i k = some d) :
    Hits i d k := by
  have hits : ∀ d, (decide (0 < d) && i.contains (quotient d k).1 (quotient d k).2) = true →
      Hits i d k := fun d hd => by
    rw [Bool.and_eq_true, decide_eq_true_iff] at hd
    exact ⟨hd.1, hd.2⟩
  rw [onGrid] at h
  dsimp only at h
  split_ifs at h
  all_goals
    rename_i hfound
    cases h
    exact hits _ hfound

/-- Half a unit of a grid with seventeen digits is less than what may be missing below. -/
theorem half_unit_lt_below {k : ℤ} (hlt : m < 2 ^ 53)
    (hk : 10 ^ 16 * (10 : ℚ) ^ k ≤ m * 2 ^ e) : 1 / 2 * 10 ^ k < below m e * (2 : ℚ) ^ e := by
  have htwo : (0 : ℚ) < 2 ^ e := by positivity
  rw [below]
  split
  · rename_i hcase
    rw [hcase.1] at hk
    norm_num at hk ⊢
    linarith
  · have hle : (m : ℚ) * 2 ^ e ≤ 2 ^ 53 * 2 ^ e := by
      gcongr
      exact_mod_cast hlt.le
    norm_num at hk hle ⊢
    linarith

/-- **A grid that is fine enough has a hit:** the decimal nearest to the double. -/
theorem isSome_onGrid {k : ℤ} (hm : 0 < m) (hlt : m < 2 ^ 53)
    (hk : 10 ^ 16 * (10 : ℚ) ^ k ≤ m * 2 ^ e) : (onGrid tie (Interval.of m e) k).isSome := by
  have hten : (0 : ℚ) < 10 ^ k := by positivity
  set a := (Decimal.inUnits (Interval.of m e).value (Interval.of m e).den k).1 with ha
  set b := (Decimal.inUnits (Interval.of m e).value (Interval.of m e).den k).2 with hb
  have hbpos : 0 < b := Nat.mul_pos (Interval.den_pos m e) (Nat.pow_pos (by decide))
  have hvalue : (a / b : ℚ) = m * 2 ^ e / 10 ^ k := by
    rw [ha, hb, inUnits_div, Interval.value_div]
  have hnear := abs_roundDiv_sub_le tie (a := a) hbpos
  rw [hvalue] at hnear
  have hbig : (10 : ℚ) ^ 16 ≤ m * 2 ^ e / 10 ^ k := by rwa [le_div_iff₀ hten]
  have hpos : 0 < roundDiv tie a b := by
    have : (0 : ℚ) < roundDiv tie a b := by
      have := (abs_le.mp hnear).1
      norm_num at hbig
      linarith
    exact_mod_cast this
  have hin : (Interval.of m e).contains (quotient (roundDiv tie a b) k).1
      (quotient (roundDiv tie a b) k).2 = true := by
    refine Interval.contains_of_near hm (quotient_den_pos _ _) ?_
    rw [quotient_div]
    have hscale : (roundDiv tie a b : ℚ) * 10 ^ k - m * 2 ^ e =
        (roundDiv tie a b - m * 2 ^ e / 10 ^ k) * 10 ^ k := by
      rw [sub_mul, div_mul_cancel₀ _ hten.ne']
    rw [hscale, abs_mul, abs_of_pos hten]
    exact (mul_le_mul_of_nonneg_right hnear hten.le).trans_lt (half_unit_lt_below hlt hk)
  rw [onGrid]
  dsimp only
  rw [← ha, ← hb, if_pos (by rw [hin, Bool.and_true, decide_eq_true_iff]; exact hpos)]
  rfl

/-- **The search ends with a hit** if one of its grids has one. -/
theorem hits_search {i : Interval} {decade : ℤ} {fuel count : ℕ}
    (h : ∃ n, count ≤ n ∧ n < count + fuel ∧ (onGrid tie i (decade - n)).isSome) :
    Hits i (search tie i decade fuel count).1 (search tie i decade fuel count).2 := by
  induction fuel generalizing count with
  | zero =>
    obtain ⟨n, hle, hlt, -⟩ := h
    omega
  | succ fuel ih =>
    rw [search]
    split
    · rename_i d hd
      exact hits_of_onGrid hd
    · rename_i hnone
      obtain ⟨n, hle, hlt, hsome⟩ := h
      refine ih ⟨n, ?_, by omega, hsome⟩
      refine Nat.lt_of_le_of_ne hle ?_
      rintro rfl
      rw [hnone] at hsome
      cases hsome

/-- **Every double has a decimal** in its interval. -/
theorem hits_of_double (hm : 0 < m) (hlt : m < 2 ^ 53) :
    let i := Interval.of m e
    let found := search tie i (Decimal.decade i.value i.den) 17 0
    Hits i found.1 found.2 := by
  intro i found
  refine hits_search ⟨16, Nat.zero_le _, by decide, isSome_onGrid hm hlt ?_⟩
  have hvalue : 0 < i.value := Nat.mul_pos (Nat.mul_pos (by decide) hm) (Nat.two_pow_pos _)
  have hdecade := Decimal.pow_decade_le hvalue (Interval.den_pos m e)
  rw [Interval.value_div] at hdecade
  refine le_trans (le_of_eq ?_) hdecade
  rw [zpow_sub₀ (by norm_num)]
  norm_num
  exact mul_div_cancel₀ _ (by norm_num)

/-! ## The digits -/

/-- Digits of which the first is not zero. -/
structure Written (ds : List Char) : Prop where
  digits : ∀ c ∈ ds, c.isDigit = true
  head : ds.head? ≠ some '0'
  ne_nil : ds ≠ []

/-- The digits of a positive number do not begin with zero. -/
theorem head?_digits_ne {n : ℕ} (hn : 0 < n) : (Decimal.digits n).head? ≠ some '0' := by
  induction n using Nat.strongRecOn with
  | ind n ih =>
    rw [Decimal.digits, Nat.toDigits_eq_if (by decide)]
    split
    · rename_i hlt
      rw [List.head?_cons, ne_eq, Option.some_inj, Nat.digitChar_eq_zero]
      omega
    · rw [List.head?_append_of_ne_nil _ Nat.toDigits_ne_nil]
      exact ih (n / 10) (by omega) (by omega)

/-- Zeros at the end can be put back. -/
theorem exists_stripZeros (ds : List Char) :
    ∃ n, ds = stripZeros ds ++ List.replicate n '0' := by
  have hsplit := List.takeWhile_append_dropWhile (p := (· = '0')) (l := ds.reverse)
  have hzeros : ds.reverse.takeWhile (· = '0') =
      List.replicate (ds.reverse.takeWhile (· = '0')).length '0' := by
    refine List.eq_replicate_iff.mpr ⟨rfl, fun c hc => ?_⟩
    exact of_decide_eq_true (List.all_eq_true.mp List.all_takeWhile c hc)
  refine ⟨(ds.reverse.takeWhile (· = '0')).length, ?_⟩
  rw [stripZeros, ← List.reverse_replicate, ← hzeros, ← List.reverse_append, hsplit,
    List.reverse_reverse]

/-- **Digits without zeros at the end** say the number, but for a power of ten. -/
theorem exists_stripped {d : ℕ} (hd : 0 < d) : ∃ n, Written (stripZeros (Decimal.digits d)) ∧
    (Decimal.digits d).length = (stripZeros (Decimal.digits d)).length + n ∧
      d = 10 ^ n * Nat.ofDigitChars 10 (stripZeros (Decimal.digits d)) 0 := by
  obtain ⟨n, hn⟩ := exists_stripZeros (Decimal.digits d)
  have hnumber : d = 10 ^ n * Nat.ofDigitChars 10 (stripZeros (Decimal.digits d)) 0 := by
    have hback := Nat.ofDigitChars_ten_toDigits (n := d)
    rw [← Decimal.digits, hn, Nat.ofDigitChars_append, Nat.ofDigitChars_replicate_zero] at hback
    exact hback.symm
  have hne : stripZeros (Decimal.digits d) ≠ [] := by
    intro hnil
    rw [hnil, Nat.ofDigitChars_nil, Nat.mul_zero] at hnumber
    exact hd.ne' hnumber
  have hdigits : ∀ c ∈ Decimal.digits d, c.isDigit = true := fun c hc =>
    Nat.isDigit_of_mem_toDigits (by decide) (by decide) hc
  have hhead := head?_digits_ne hd
  refine ⟨n, ⟨?_, ?_, hne⟩, ?_, hnumber⟩
  · rw [hn] at hdigits
    exact fun c hc => hdigits c (List.mem_append_left _ hc)
  · rw [hn, List.head?_append_of_ne_nil _ hne] at hhead
    exact hhead
  · rw [congrArg List.length hn, List.length_append, List.length_replicate]

/-- **The digits written** are those of a decimal that is rounded to the double. -/
theorem ofPositive_spec (tie : Tie) (hm : 0 < m) (hlt : m < 2 ^ 53) :
    let written := ofPositive tie m e
    Written written.1 ∧ RoundsTo m e
      (Nat.ofDigitChars 10 written.1 0 * 10 ^ (written.2 + 1 - (written.1.length : ℤ))) := by
  intro written
  set i := Interval.of m e with hi
  set found := search tie i (Decimal.decade i.value i.den) 17 0 with hfound
  have hhits : Hits i found.1 found.2 := hits_of_double hm hlt
  have hwritten : written = (stripZeros (Decimal.digits found.1),
      found.2 + ((Decimal.digits found.1).length - 1 : ℕ)) := rfl
  obtain ⟨n, hdigits, hlen, hnumber⟩ := exists_stripped hhits.pos
  refine ⟨hdigits, ?_⟩
  -- what was taken off the digits goes into the exponent
  have hvalue : (Nat.ofDigitChars 10 written.1 0 * (10 : ℚ) ^
      (written.2 + 1 - (written.1.length : ℤ))) = found.1 * 10 ^ found.2 := by
    have hpos := List.length_pos_of_ne_nil hdigits.ne_nil
    have hexp : written.2 + 1 - (written.1.length : ℤ) = found.2 + n := by
      rw [hwritten]
      simp only
      omega
    rw [hexp, hnumber, zpow_add₀ (by norm_num), zpow_natCast, hwritten]
    push_cast
    ring
  rw [hvalue, ← quotient_div]
  exact Interval.roundsTo hm (quotient_den_pos _ _) hhits.inside

end Shortest

end SplitQP
