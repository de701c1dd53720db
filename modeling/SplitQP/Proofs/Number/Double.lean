import Mathlib
import SplitQP.Number.Binary
/-!
# Doubles as numbers

A double stands for `± m · 2 ^ e`, for an infinite value, or for no number
at all. No other double stands for the same (`toFloat_ofFloat`). A finite
one that is not zero has one form (`Canonical`), and the operations on
doubles see just what it stands for: they read it off (`unpack_toModel`)
and put a result back without loss (`unpack_pack_finite`).
-/

namespace SplitQP

open Float.Model Float.Model.UnpackedFloat

namespace Binary

/-! ## The bits of a double -/

/-- The sign of a number. -/
def signOf (negative : Bool) : Sign := if negative then .negative else .positive

/-- Sign, exponent and mantissa as one number. -/
theorem toNat_packComponents (s : Sign) (ex : BitVec 11) (man : BitVec 52) :
    (packComponents Format.binary64 s ex man).toNat =
      s.toBitVec.toNat * 2 ^ 63 + ex.toNat * 2 ^ 52 + man.toNat := by
  have hex := ex.isLt
  have hman := man.isLt
  show (s.toBitVec ++ ex ++ man).toNat = _
  rw [BitVec.toNat_append, BitVec.toNat_append, ← Nat.shiftLeft_add_eq_or_of_lt hman,
    ← Nat.shiftLeft_add_eq_or_of_lt hex]
  simp only [Nat.shiftLeft_eq]
  omega

theorem toNat_signOf (negative : Bool) : (signOf negative).toBitVec.toNat = negative.toNat := by
  cases negative <;> rfl

/-- **Any 64 bits** are a sign, an exponent and a mantissa. -/
theorem exists_packComponents (b : BitVec 64) :
    ∃ (negative : Bool) (ex : BitVec 11) (man : BitVec 52),
      b = packComponents Format.binary64 (signOf negative) ex man := by
  have hb := b.isLt
  refine ⟨b.toNat / 2 ^ 63 == 1, .ofNat 11 (b.toNat / 2 ^ 52), .ofNat 52 b.toNat,
    BitVec.eq_of_toNat_eq ?_⟩
  rw [toNat_packComponents, toNat_signOf, BitVec.toNat_ofNat, BitVec.toNat_ofNat]
  have hsign : (b.toNat / 2 ^ 63 == 1).toNat = b.toNat / 2 ^ 63 := by
    by_cases h : b.toNat / 2 ^ 63 = 1
    · rw [h]
      rfl
    · rw [beq_false_of_ne h, Bool.toNat_false]
      omega
  omega

variable (negative : Bool) (ex : BitVec 11) (man : BitVec 52)

/-- What they stand for. -/
theorem ofBits_packComponents :
    ofBits (.ofBitVec (packComponents Format.binary64 (signOf negative) ex man)) =
      if ex.toNat = 2047 then if man.toNat = 0 then .infinite negative else .nan
      else if ex.toNat = 0 then .finite negative man.toNat (-1074)
      else .finite negative (pow2 52 + man.toNat) (ex.toNat - 1075) := by
  have hex := ex.isLt
  have hman := man.isLt
  have hpow : pow2 63 = 2 ^ 63 ∧ pow2 52 = 2 ^ 52 ∧ pow2 11 = 2 ^ 11 := ⟨rfl, rfl, rfl⟩
  have hbits := toNat_packComponents (signOf negative) ex man
  rw [toNat_signOf] at hbits
  have hnegative := negative.toNat_le
  have hsign : ∀ b : ℕ, b = negative.toNat → (b == 1) = negative := by
    rintro _ rfl
    cases negative <;> rfl
  rw [ofBits]
  have hexponent : (negative.toNat * 2 ^ 63 + ex.toNat * 2 ^ 52 + man.toNat) / 2 ^ 52 % 2 ^ 11 =
      ex.toNat := by omega
  have hmantissa : (negative.toNat * 2 ^ 63 + ex.toNat * 2 ^ 52 + man.toNat) % 2 ^ 52 =
      man.toNat := by omega
  rw [UInt64.toNat_ofBitVec, hpow.1, hpow.2.1, hpow.2.2, hbits, hsign _ (by omega), hexponent,
    hmantissa]

/-! ## What the operations make of a double -/

/-- A number as operations take it. -/
def unpacked : Binary → UnpackedFloat
  | nan => .notANumber
  | infinite negative => .infinity (signOf negative)
  | finite negative m e =>
    if h : 0 < m then .finite (signOf negative) m e h else .zero (signOf negative)

/-- The double that stands for a number. -/
def toFloat (b : Binary) : Float := .ofModel (.pack b.unpacked)

theorem ofBitVec_signOf : Sign.ofBitVec (signOf negative).toBitVec = signOf negative := by
  cases negative <;> rfl

/-- Operations read off what the bits stand for. -/
theorem unpack_packComponents :
    UnpackedFloat.unpack Format.binary64
        (packComponents Format.binary64 (signOf negative) ex man) =
      (ofBits (.ofBitVec (packComponents Format.binary64 (signOf negative) ex man))).unpacked := by
  have hman := man.isLt
  have hall : ex = -1#_ ↔ ex.toNat = 2047 := BitVec.toNat_inj.symm
  have hzero : ex = 0#_ ↔ ex.toNat = 0 := BitVec.toNat_inj.symm
  have hnone : man = 0#_ ↔ man.toNat = 0 := BitVec.toNat_inj.symm
  have hbias : ((Format.binary64.exponentBias : ℕ) : ℤ) = 1023 := rfl
  have hpow : pow2 52 = 2 ^ 52 := rfl
  rw [ofBits_packComponents, UnpackedFloat.unpack]
  simp only [unpackExponent_packComponents, unpackMantissa_packComponents,
    unpackSign_packComponents, ofBitVec_signOf, hall, hzero, hbias]
  by_cases h2047 : ex.toNat = 2047
  · simp only [h2047, if_true, hnone]
    by_cases hm : man.toNat = 0
    · rw [if_pos hm, if_pos hm]
      rfl
    · rw [if_neg hm, if_neg hm]
      rfl
  simp only [if_neg h2047]
  by_cases h0 : ex.toNat = 0
  · simp only [h0, if_true, unpacked]
    by_cases hm : man.toNat = 0
    · rw [dif_pos (hnone.mpr hm), dif_neg (by omega)]
    · rw [dif_neg (fun h => hm (hnone.mp h)), dif_pos (by omega)]
      rfl
  · have happ : (1#1 ++ man).toNat = 2 ^ 52 + man.toNat := by
      rw [BitVec.toNat_append, ← Nat.shiftLeft_add_eq_or_of_lt hman]
      rfl
    simp only [if_neg h0, unpacked]
    rw [dif_pos (by omega)]
    simp only [happ, hpow]
    congr 1

/-! ## The form of a finite double -/

/-- `m · 2 ^ e` in the form that a double has. -/
structure Canonical (m : ℕ) (e : ℤ) : Prop where
  pos : 0 < m
  lt : m < 2 ^ 53
  least : -1074 ≤ e
  most : e ≤ 971
  full : 2 ^ 52 ≤ m ∨ e = -1074

/-- **Every finite double** has this form, or is a zero. -/
theorem canonical_or_zero {b : UInt64} {m : ℕ} {e : ℤ} (h : ofBits b = .finite negative m e) :
    Canonical m e ∨ m = 0 ∧ e = -1074 := by
  have hpow : pow2 52 = 2 ^ 52 ∧ pow2 11 = 2 ^ 11 := ⟨rfl, rfl⟩
  have hex : b.toNat / pow2 52 % pow2 11 < 2 ^ 11 := Nat.mod_lt _ (by decide)
  have hman : b.toNat % pow2 52 < 2 ^ 52 := Nat.mod_lt _ (by decide)
  rw [ofBits] at h
  generalize b.toNat / pow2 52 % pow2 11 = ex at h hex
  generalize b.toNat % pow2 52 = man at h hman
  rw [hpow.1] at h
  split_ifs at h with h2047 hm h0
  · cases h
    rcases Nat.eq_zero_or_pos m with hm | hm
    · exact .inr ⟨hm, rfl⟩
    · exact .inl ⟨hm, by omega, le_rfl, by omega, .inr rfl⟩
  · cases h
    exact .inl ⟨by omega, by omega, by omega, by omega, .inl (by omega)⟩

variable {m : ℕ} {e : ℤ}

/-- A mantissa is of full length from `2 ^ 52` on. -/
theorem log2_of_full (h : Canonical m e) : m.log2 + 1 = 53 ↔ 2 ^ 52 ≤ m := by
  have hm := h.pos
  have hlt := (Nat.log2_lt (by omega)).mpr h.lt
  have hle := Nat.le_log2 (k := 52) (Nat.ne_of_gt hm)
  omega

/-- **The bits of a finite double.** -/
theorem pack_finite (h : Canonical m e) (s : Sign) :
    UnpackedFloat.pack Format.binary64 (.finite s m e h.pos) =
      packComponents Format.binary64 s
        (.ofNat 11 (if 2 ^ 52 ≤ m then (e + 1075).toNat else 0)) (.ofNat 52 m) := by
  have hbias : e + ((Format.binary64.exponentBias : ℕ) : ℤ) +
      ((Format.binary64.mantissaBitsWithoutImplicit : ℕ) : ℤ) = e + 1075 := by
    rw [show ((Format.binary64.exponentBias : ℕ) : ℤ) = 1023 from rfl]
    show e + 1023 + 52 = e + 1075
    omega
  have hbits : Format.binary64.mantissaBits = 53 := rfl
  have hmost := h.most
  rw [UnpackedFloat.pack]
  simp only [hbias, hbits, log2_of_full h]
  rw [if_neg (by show ¬ 2 ^ 11 ≤ _; omega)]
  by_cases hm : 2 ^ 52 ≤ m
  · simp only [if_pos hm]
  · simp only [if_neg hm]

theorem ofBits_pack_finite (h : Canonical m e) :
    ofBits (.ofBitVec (UnpackedFloat.pack Format.binary64
      (.finite (signOf negative) m e h.pos))) = .finite negative m e := by
  have hpow : pow2 52 = 2 ^ 52 := rfl
  obtain ⟨hpos, hlt, hleast, hmost, hfull⟩ := h
  rw [pack_finite ⟨hpos, hlt, hleast, hmost, hfull⟩, ofBits_packComponents, BitVec.toNat_ofNat,
    BitVec.toNat_ofNat, hpow]
  by_cases hm : 2 ^ 52 ≤ m
  · rw [if_pos hm, if_neg (by omega), if_neg (by omega)]
    congr 1 <;> omega
  · rw [if_neg hm, if_neg (by omega), if_pos (by omega)]
    congr 1 <;> omega

/-- Packing loses nothing of a finite double. -/
theorem unpack_pack_finite (h : Canonical m e) :
    (Float.Model.pack (.finite (signOf negative) m e h.pos)).unpack =
      .finite (signOf negative) m e h.pos := by
  obtain ⟨negative', ex, man, hbits⟩ := exists_packComponents
    (UnpackedFloat.pack Format.binary64 (.finite (signOf negative) m e h.pos))
  have hof := ofBits_pack_finite negative h
  rw [hbits] at hof
  rw [Float.Model.unpack, Float.Model.pack]
  simp only
  rw [hbits, unpack_packComponents, hof, unpacked, dif_pos h.pos]

/-- What bits stand for determines them, as there is one value that is not a number. -/
theorem pack_unpacked_ofBits {b : UInt64} (h : Format.binary64.Valid b.toBitVec) :
    UnpackedFloat.pack Format.binary64 (ofBits b).unpacked = b.toBitVec := by
  obtain ⟨b⟩ := b
  obtain ⟨negative, ex, man, rfl⟩ := exists_packComponents b
  rw [← unpack_packComponents]
  exact pack_unpack_of_valid h

/-- **A double is the number it stands for.** -/
theorem toFloat_ofFloat (x : Float) : (ofFloat x).toFloat = x := by
  obtain ⟨⟨bits, hvalid⟩⟩ := x
  have hbits := pack_unpacked_ofBits hvalid
  rw [toFloat, ofFloat, Float.Model.pack]
  simp only [Float.toBits, hbits]

/-- **Operations see what a double stands for.** -/
theorem unpack_toModel (x : Float) : x.toModel.unpack = (ofFloat x).unpacked := by
  obtain ⟨⟨⟨bits⟩, hvalid⟩⟩ := x
  obtain ⟨negative, ex, man, rfl⟩ := exists_packComponents bits
  exact unpack_packComponents negative ex man

/-! ## Which kind a double is -/

theorem isFinite_iff {x : Float} :
    x.isFinite ↔ ∃ negative m e, ofFloat x = .finite negative m e := by
  rw [Float.isFinite, Float.Model.isFinite, unpack_toModel]
  cases hx : ofFloat x with
  | nan => simp [unpacked, UnpackedFloat.isFinite]
  | infinite => simp [unpacked, UnpackedFloat.isFinite]
  | finite negative m e =>
    rw [unpacked]
    split <;> simp [UnpackedFloat.isFinite]

theorem isInf_iff {x : Float} : x.isInf ↔ ∃ negative, ofFloat x = .infinite negative := by
  rw [Float.isInf, Float.Model.isInf, unpack_toModel]
  cases hx : ofFloat x with
  | nan => simp [unpacked, UnpackedFloat.isInf]
  | infinite => simp [unpacked, UnpackedFloat.isInf]
  | finite negative m e =>
    rw [unpacked]
    split <;> simp [UnpackedFloat.isInf]

/-- Two doubles equal zero. -/
theorem beq_zero_iff {x : Float} : (x == 0.0) = true ↔ x = 0.0 ∨ x = -0.0 := by
  constructor
  · intro h
    obtain ⟨-, -, h | ⟨h, -⟩ | ⟨h, -⟩⟩ := Float.beq_iff_ne_nan_and_eq.mp h
    · exact .inl h
    · exact .inl h
    · exact .inr h
  · rintro (rfl | rfl) <;> decide

end Binary

end SplitQP
