import SplitQP.Proofs.Json.Literal
import SplitQP.Proofs.Number.Shortest
/-!
# Numbers are read as they were written

A finite double is written in pieces that say a decimal of it
(`value_ofDecimal`), and that decimal is read as the double
(`magnitude_eq`). So every finite double has a literal that stands for it
(`exists_literal`), which is no integer. Integers are written with their
digits alone.
-/

namespace SplitQP

namespace Numeral

open Shortest

/-! ## The pieces of a decimal -/

/-- The pieces of a decimal with these digits, the first of which has this exponent. -/
def Literal.ofDecimal (negative : Bool) (ds : List Char) (k : ℤ) : Literal :=
  if -5 ≤ k ∧ k ≤ 15 then
    if k < 0 then ⟨negative, ['0'], some (List.replicate (-(k + 1)).toNat '0' ++ ds), none⟩
    else
      let whole := ds.take (k + 1).toNat
      let behind := ds.drop (k + 1).toNat
      ⟨negative, whole ++ List.replicate ((k + 1).toNat - whole.length) '0',
        some (if behind.isEmpty then ['0'] else behind), none⟩
  else ⟨negative, ds.take 1, if ds.tail.isEmpty then none else some ds.tail, some k⟩

variable {ds : List Char} {negative : Bool} {k : ℤ}

theorem toList_sign (negative : Bool) :
    (Decimal.sign false negative).toList = Literal.signText negative := by
  cases negative <;> rfl

/-- Without an exponent. -/
theorem toList_positional (hk : -5 ≤ k ∧ k ≤ 15) :
    Literal.signText negative ++ (positional ".0" ds (k + 1)).toList =
      (Literal.ofDecimal negative ds k).text := by
  rw [Literal.ofDecimal, if_pos hk, positional]
  by_cases hneg : k < 0
  · rw [if_pos (by omega), if_pos hneg, String.toList_append, String.toList_ofList]
    simp [Literal.text, Literal.powerText, Literal.fractionText]
  · rw [if_neg (by omega), if_neg hneg, String.toList_append, String.toList_ofList, Literal.text,
      Literal.powerText, List.append_nil]
    dsimp only
    congr 2
    by_cases hempty : (ds.drop (k + 1).toNat).isEmpty = true
    · rw [if_pos hempty, if_pos hempty]
      rfl
    · rw [if_neg hempty, if_neg hempty, String.toList_ofList]
      rfl

/-- With an exponent. -/
theorem toList_pointed (hds : Written ds) (hk : ¬ (-5 ≤ k ∧ k ≤ 15)) :
    Literal.signText negative ++
        (Decimal.pointed ds ++ "e" ++ (if 0 < k then "+" else "") ++ toString k).toList =
      (Literal.ofDecimal negative ds k).text := by
  have hplus : (if 0 < k then "+" else "").toList = if 0 < k then ['+'] else [] := by
    split <;> rfl
  rw [Literal.ofDecimal, if_neg hk, Literal.text, String.toList_append, String.toList_append,
    String.toList_append, hplus, Literal.powerText]
  congr 1
  obtain ⟨d, ds', rfl⟩ := List.exists_cons_of_ne_nil hds.ne_nil
  cases ds' with
  | nil => simp [Decimal.pointed, Literal.fractionText]
  | cons d' ds' => simp [Decimal.pointed, Literal.fractionText]

theorem wellFormed_ofDecimal (hds : Written ds) (negative : Bool) (k : ℤ) :
    (Literal.ofDecimal negative ds k).WellFormed := by
  have hzeros : ∀ n, ∀ c ∈ List.replicate n '0', c.isDigit = true := fun n c hc => by
    rw [List.eq_of_mem_replicate hc]
    rfl
  have happend : ∀ ds' ds'' : List Char, (∀ c ∈ ds', c.isDigit = true) →
      (∀ c ∈ ds'', c.isDigit = true) → ∀ c ∈ ds' ++ ds'', c.isDigit = true :=
    fun ds' ds'' h h' c hc => (List.mem_append.mp hc).elim (h c) (h' c)
  have htake : ∀ n, ∀ c ∈ ds.take n, c.isDigit = true := fun n c hc =>
    hds.digits c (List.mem_of_mem_take hc)
  have hdrop : ∀ n, ∀ c ∈ ds.drop n, c.isDigit = true := fun n c hc =>
    hds.digits c (List.mem_of_mem_drop hc)
  have hne := hds.ne_nil
  rw [Literal.ofDecimal]
  split
  · split
    · refine ⟨hzeros 1, List.cons_ne_nil _ _, fun _ => le_rfl, ?_⟩
      rintro _ ⟨⟩
      exact ⟨List.append_ne_nil_of_right_ne_nil _ hne, happend _ _ (hzeros _) hds.digits⟩
    · -- the first digit is among the whole ones
      rename_i hneg
      obtain ⟨d, ds', rfl⟩ := List.exists_cons_of_ne_nil hne
      have hn : (k + 1).toNat = k.toNat + 1 := by omega
      refine ⟨happend _ _ (htake _) (hzeros _), ?_, ?_, ?_⟩
      · rw [hn, List.take_succ_cons]
        exact List.cons_ne_nil _ _
      · rw [hn, List.take_succ_cons]
        exact fun hhead => absurd hhead hds.head
      · rintro _ ⟨⟩
        split
        · exact ⟨List.cons_ne_nil _ _, hzeros 1⟩
        · rename_i hempty
          exact ⟨by simpa using hempty, hdrop _⟩
  · obtain ⟨d, ds', rfl⟩ := List.exists_cons_of_ne_nil hne
    refine ⟨htake 1, List.cons_ne_nil _ _, fun _ => le_rfl, ?_⟩
    intro ds'' hds''
    split at hds''
    · cases hds''
    · rename_i hempty
      cases hds''
      exact ⟨by simpa using hempty, hdrop 1⟩

/-- What the pieces of a literal say. -/
theorem value_numeral (l : Literal) :
    (l.numeral.digits : ℚ) * 10 ^ l.numeral.exponent =
      Nat.ofDigitChars 10 (l.whole ++ l.behind.getD []) 0 *
        10 ^ (l.power.getD 0 - ((l.behind.getD []).length : ℤ)) := by
  have hdigits : l.numeral.digits = Nat.ofDigitChars 10 (l.whole ++ l.behind.getD []) 0 :=
    ofDigits_eq _
  rw [hdigits]
  rfl

/-- Zeros in front say nothing. -/
theorem ofDigitChars_zeros_before (n : ℕ) (ds : List Char) :
    Nat.ofDigitChars 10 (['0'] ++ (List.replicate n '0' ++ ds)) 0 = Nat.ofDigitChars 10 ds 0 := by
  rw [Nat.ofDigitChars_append, Nat.ofDigitChars_append, Nat.ofDigitChars_replicate_zero]
  rfl

/-- Zeros at the end, and one behind the point, say where the point is. -/
theorem ofDigitChars_zeros_behind (n : ℕ) (ds : List Char) :
    (Nat.ofDigitChars 10 (ds ++ List.replicate n '0' ++ ['0']) 0 : ℚ) * 10 ^ (-1 : ℤ) =
      Nat.ofDigitChars 10 ds 0 * 10 ^ n := by
  have hlast : ∀ n, Nat.ofDigitChars 10 ['0'] n = 10 * n := fun n => by
    rw [Nat.ofDigitChars_cons, Nat.ofDigitChars_nil]
    rfl
  rw [Nat.ofDigitChars_append, Nat.ofDigitChars_append, Nat.ofDigitChars_replicate_zero, hlast]
  push_cast
  rw [zpow_neg_one]
  ring

/-- **The pieces of a decimal** say the decimal. -/
theorem value_ofDecimal (hds : Written ds) (negative : Bool) (k : ℤ) :
    let n := (Literal.ofDecimal negative ds k).numeral
    (n.digits : ℚ) * 10 ^ n.exponent =
        Nat.ofDigitChars 10 ds 0 * 10 ^ (k + 1 - (ds.length : ℤ)) ∧
      n.negative = negative ∧ n.isPlain = false := by
  intro n
  have hlength := List.length_pos_of_ne_nil hds.ne_nil
  simp only [n, value_numeral, Literal.ofDecimal]
  split
  · split
    · -- the point is in front of all digits
      refine ⟨?_, rfl, rfl⟩
      simp only [Option.getD_some, Option.getD_none]
      rw [ofDigitChars_zeros_before, List.length_append, List.length_replicate]
      congr 2
      omega
    · refine ⟨?_, rfl, rfl⟩
      simp only [Option.getD_some, Option.getD_none]
      by_cases hempty : (ds.drop (k + 1).toNat).isEmpty = true
      · -- it is behind all of them
        have hle : ds.length ≤ (k + 1).toNat := by simpa using hempty
        have hexp : k + 1 - (ds.length : ℤ) = ((k + 1).toNat - ds.length : ℕ) := by omega
        have hone : (0 : ℤ) - ((['0'] : List Char).length : ℤ) = -1 := rfl
        rw [if_pos hempty, List.take_of_length_le hle, hexp, zpow_natCast, hone,
          ofDigitChars_zeros_behind]
      · have hlt : (k + 1).toNat < ds.length := by simpa using hempty
        rw [if_neg hempty, List.length_take_of_le hlt.le, Nat.sub_self, List.replicate_zero,
          List.append_nil, List.take_append_drop, List.length_drop]
        congr 2
        omega
  · refine ⟨?_, rfl, ?_⟩
    · obtain ⟨d, ds', rfl⟩ := List.exists_cons_of_ne_nil hds.ne_nil
      have hbehind : (if (d :: ds').tail.isEmpty = true then none
          else some (d :: ds').tail).getD [] = ds' := by
        cases ds' <;> rfl
      rw [hbehind, Option.getD_some, List.length_cons, List.take_succ_cons, List.take_zero,
        List.singleton_append]
      congr 2
      push_cast
      ring
    · simp [Literal.numeral]

/-! ## Integers -/

/-- The pieces of an integer. -/
def Literal.ofInt (i : ℤ) : Literal := ⟨decide (i < 0), Decimal.digits i.natAbs, none, none⟩

theorem text_ofInt (i : ℤ) : (Literal.ofInt i).text = writeInt i := by
  rw [writeInt, toList_toString, Literal.text]
  simp [Literal.ofInt, Literal.fractionText, Literal.powerText]

theorem wellFormed_ofInt (i : ℤ) : (Literal.ofInt i).WellFormed := by
  refine ⟨isDigit_of_mem_digits, Nat.toDigits_ne_nil, fun hhead => ?_, ?_⟩
  · rcases Nat.eq_zero_or_pos i.natAbs with hi | hi
    · simp only [Literal.ofInt, hi]
      exact le_rfl
    · exact absurd hhead (head?_digits_ne hi)
  · rintro _ ⟨⟩

/-- **An integer is read as itself** if it fits. -/
theorem toInt?_ofInt {i : ℤ} (hlow : -2 ^ 63 ≤ i) (hhigh : i < 2 ^ 64) :
    (Literal.ofInt i).numeral.toInt? = some i := by
  have hnumeral : (Literal.ofInt i).numeral = ⟨decide (i < 0), i.natAbs, 0, true⟩ := by
    simp [Literal.numeral, Literal.ofInt, ofDigits_digits]
  rw [hnumeral, toInt?, pow2_eq, pow2_eq]
  simp only [Bool.not_true, Bool.false_eq_true, if_false, decide_eq_true_iff]
  split
  · rw [if_pos (by omega)]
    congr 1
    omega
  · rw [if_pos (by omega)]
    congr 1
    omega

section Doubles

open Binary

/-! ## Decimals that are rounded to a double -/

variable {m d : ℕ} {e : ℤ}

/-- Numbers that are rounded to a positive double are not too small. -/
theorem le_of_roundsTo (hc : Canonical m e) {v : ℚ} (hv : RoundsTo m e v) :
    (2 : ℚ) ^ (-1075 : ℤ) ≤ v := by
  have hbelow : below m e ≤ 1 / 2 := by
    rw [below]
    split <;> norm_num
  have hm : (1 : ℚ) ≤ m := by exact_mod_cast hc.pos
  have hstep : (2 : ℚ) ^ (-1075 : ℤ) = 1 / 2 * 2 ^ (-1074 : ℤ) := by
    rw [show (-1075 : ℤ) = -1 + -1074 by rfl, zpow_add₀ (by norm_num), zpow_neg_one, one_div]
  have hleast := hc.least
  calc (2 : ℚ) ^ (-1075 : ℤ) = 1 / 2 * 2 ^ (-1074 : ℤ) := hstep
    _ ≤ (m - below m e) * 2 ^ e := by
        refine mul_le_mul (by linarith) (zpow_le_zpow_right₀ (by norm_num) hleast) ?_ (by linarith)
        positivity
    _ ≤ v := hv.low

theorem two_pow_le_ten_pow {a b : ℕ} (h : a ≤ 3 * b) : (2 : ℚ) ^ a ≤ 10 ^ b :=
  calc (2 : ℚ) ^ a ≤ 2 ^ (3 * b) := pow_le_pow_right₀ (by norm_num) h
    _ = (2 ^ 3) ^ b := pow_mul 2 3 b
    _ ≤ 10 ^ b := pow_le_pow_left₀ (by norm_num) (by norm_num) b

/-- Where the digits of a positive number begin. -/
theorem decade_bounds (hd : 0 < d) (k : ℤ) :
    (10 : ℚ) ^ (k + Decimal.length d - 1) ≤ d * 10 ^ k ∧
      (d * 10 ^ k : ℚ) < 10 ^ (k + Decimal.length d) := by
  have hlength := Decimal.length_pos d
  have hlow : (10 : ℚ) ^ (Decimal.length d - 1) ≤ d := by exact_mod_cast Decimal.pow_length_le hd
  have hhigh : (d : ℚ) < 10 ^ Decimal.length d := by exact_mod_cast Decimal.lt_pow_length d
  constructor
  · rw [show k + (Decimal.length d : ℤ) - 1 = ((Decimal.length d - 1 : ℕ) : ℤ) + k by omega,
      zpow_add₀ (by norm_num), zpow_natCast]
    gcongr
  · rw [add_comm k, zpow_add₀ (by norm_num), zpow_natCast]
    gcongr

theorem length_le_log2 (hd : 0 < d) : Decimal.length d ≤ d.log2 + 1 := by
  have hle : 2 ^ (Decimal.length d - 1) ≤ d :=
    (Nat.pow_le_pow_left (by decide) _).trans (Decimal.pow_length_le hd)
  have := (Nat.le_log2 (Nat.ne_of_gt hd)).mpr hle
  omega

/-- **A decimal that is rounded to a double is read as that double.** -/
theorem magnitude_eq (hc : Canonical m e) {k : ℤ} (hv : RoundsTo m e (d * 10 ^ k)) :
    magnitude d k = (finite false m e).toFloat := by
  have hsmall := le_of_roundsTo hc hv
  have hlarge : (d * 10 ^ k : ℚ) < 2 ^ (1024 : ℤ) := by
    refine (hv.lt hc).trans_le (zpow_le_zpow_right₀ (by norm_num) ?_)
    have := hc.most
    omega
  have hd : 0 < d := by
    rcases Nat.eq_zero_or_pos d with rfl | hd
    · have : (0 : ℚ) < 2 ^ (-1075 : ℤ) := by positivity
      rw [Nat.cast_zero, zero_mul] at hsmall
      linarith
    · exact hd
  obtain ⟨hlow, hhigh⟩ := decade_bounds hd k
  have hlength := Decimal.length_pos d
  have hlog := length_le_log2 hd
  -- doubles lie within four hundred decades
  have hten : ∀ {a b : ℤ}, (10 : ℚ) ^ a < 10 ^ b → a < b := fun h =>
    (zpow_lt_zpow_iff_right₀ (by norm_num)).mp h
  have hleast : -400 < k + Decimal.length d := by
    refine hten (lt_of_le_of_lt ?_ (hsmall.trans_lt hhigh))
    rw [zpow_neg, zpow_neg, zpow_ofNat, zpow_ofNat]
    exact inv_anti₀ (by positivity) (two_pow_le_ten_pow (a := 1075) (b := 400) (by decide))
  have hmost : k + Decimal.length d - 1 < 400 := by
    refine hten ((hlow.trans_lt hlarge).trans_le ?_)
    rw [zpow_ofNat, zpow_ofNat]
    exact two_pow_le_ten_pow (a := 1024) (b := 400) (by decide)
  rw [magnitude]
  rw [if_neg (by omega), if_neg (by omega)]
  exact float_ofScientific_eq hc hd hv (by omega) (by omega)

/-! ## Doubles -/

/-- A number with a point or an exponent is no integer. -/
theorem toInt?_of_not_isPlain {n : Numeral} (h : n.isPlain = false) : n.toInt? = none := by
  rw [toInt?, h]
  rfl

/-- **A number that says a decimal of a double** is read as the double. -/
theorem toFloat?_eq (hc : Canonical m e) {n : Numeral}
    (hv : RoundsTo m e (n.digits * 10 ^ n.exponent)) :
    n.toFloat? = some (finite n.negative m e).toFloat := by
  rw [toFloat?, magnitude_eq hc hv]
  simp only [isFinite_toFloat false hc, if_true]
  cases n.negative with
  | false => rfl
  | true => rw [if_pos rfl, neg_toFloat hc]

/-- The pieces of zero. -/
def Literal.zero (negative : Bool) : Literal := ⟨negative, ['0'], some ['0'], none⟩

/-- A literal that stands for a number, and for no integer. -/
structure Literal.StandsFor (l : Literal) (x : Float) : Prop where
  wellFormed : l.WellFormed
  toInt? : l.numeral.toInt? = none
  toFloat? : l.numeral.toFloat? = some x

theorem standsFor_zero (negative : Bool) (e : ℤ) :
    (Literal.zero negative).StandsFor (finite negative 0 e).toFloat := by
  refine ⟨⟨?_, List.cons_ne_nil _ _, fun _ => le_rfl, ?_⟩, rfl, ?_⟩
  · rintro c hc
    rw [List.mem_singleton.mp hc]
    rfl
  · rintro _ ⟨⟩
    refine ⟨List.cons_ne_nil _ _, fun c hc => ?_⟩
    rw [List.mem_singleton.mp hc]
    rfl
  · cases negative <;> rfl

theorem standsFor_ofDecimal (hc : Canonical m e) (negative : Bool) :
    (Literal.ofDecimal negative (ofPositive .toEven m e).1 (ofPositive .toEven m e).2).StandsFor
      (finite negative m e).toFloat := by
  obtain ⟨hwritten, hrounds⟩ := ofPositive_spec (e := e) .toEven hc.pos hc.lt
  obtain ⟨hvalue, hnegative, hplain⟩ := value_ofDecimal hwritten negative (ofPositive .toEven m e).2
  refine ⟨wellFormed_ofDecimal hwritten _ _, toInt?_of_not_isPlain hplain, ?_⟩
  rw [← hvalue] at hrounds
  rw [toFloat?_eq hc hrounds, hnegative]

theorem toList_ofFinite (hc : Canonical m e) (negative : Bool) :
    (ofFinite negative m e).toList =
      (Literal.ofDecimal negative (ofPositive .toEven m e).1 (ofPositive .toEven m e).2).text := by
  obtain ⟨hwritten, -⟩ := ofPositive_spec (e := e) .toEven hc.pos hc.lt
  rw [ofFinite, if_neg (Nat.ne_of_gt hc.pos), String.toList_append, toList_sign]
  split
  · rename_i hk
    exact toList_positional hk
  · rename_i hk
    exact toList_pointed hwritten hk

/-- **Every finite double is written so that it is read as itself.** -/
theorem exists_literal {x : Float} (hx : x.isFinite = true) :
    ∃ l : Literal, l.StandsFor x ∧ write x = l.text := by
  obtain ⟨negative, m, e, hvalue⟩ := isFinite_iff.mp hx
  have hback := toFloat_ofFloat x
  rw [hvalue] at hback
  rw [write, hvalue]
  rcases canonical_or_zero negative hvalue with hc | ⟨rfl, rfl⟩
  · exact ⟨_, hback ▸ standsFor_ofDecimal hc negative, toList_ofFinite hc negative⟩
  · refine ⟨.zero negative, hback ▸ standsFor_zero negative _, ?_⟩
    cases negative <;> rfl

/-- What is not finite has no text of its own. -/
theorem write_of_not_isFinite {x : Float} (hx : x.isFinite = false) : write x = "null".toList := by
  rw [write]
  split
  · rename_i hvalue
    rw [isFinite_iff.mpr ⟨_, _, _, hvalue⟩] at hx
    cases hx
  · rfl

end Doubles

end Numeral

end SplitQP
