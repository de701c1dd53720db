import SplitQP.Proofs.Json.Reader
/-!
# Strings are read as they were written

Each character is read as it was written (`next_escape`), and so is the
string (`read_escape`), whatever characters it has.
-/

namespace SplitQP

open Checked Reader

namespace JsonText

variable {c : Char} {rest : List Char}

theorem hexValue_hexDigit {n : ℕ} (h : n < 16) : hexValue (hexDigit n) = some n := by
  revert n
  decide

/-- Four digits are enough bytes. -/
theorem hasFourBytes_cons (a b c d : Char) (rest : List Char) :
    hasFourBytes (a :: b :: c :: d :: rest) = true := by
  have hsize : ∀ c : Char, 1 ≤ c.utf8Size := fun c => c.utf8Size_pos
  have ha := hsize a
  have hb := hsize b
  have hc := hsize c
  have hd := hsize d
  rw [hasFourBytes, decide_eq_true_iff]
  simp only [List.take_succ_cons, List.take_zero, List.foldl_cons, List.foldl_nil]
  omega

/-- The number of a control character, as it is written. -/
theorem hexQuad_control {n : ℕ} (h : n < 32) (rest : List Char) :
    hexQuad ('0' :: '0' :: hexDigit (n / 16) :: hexDigit (n % 16) :: rest) = .ok (n, rest) := by
  have hhigh : hexValue (hexDigit (n / 16)) = some (n / 16) := hexValue_hexDigit (by omega)
  have hlow : hexValue (hexDigit (n % 16)) = some (n % 16) := hexValue_hexDigit (by omega)
  have hzero : hexValue '0' = some 0 := rfl
  rw [hexQuad, if_pos (hasFourBytes_cons _ _ _ _ _)]
  simp only [List.take_succ_cons, List.take_zero, List.mapM_cons, List.mapM_nil, hhigh, hlow,
    hzero, Option.pure_def, Option.bind_eq_bind, Option.bind_some, List.drop_succ_cons,
    List.drop_zero]
  congr 2
  omega

theorem hexEscape_control {c : Char} (h : c.toNat < 32) (rest : List Char) :
    hexEscape ('0' :: '0' :: hexDigit (c.toNat / 16) :: hexDigit (c.toNat % 16) :: rest) =
      .ok (c, rest) := by
  have hlow : isLow c.toNat = false := by
    rw [isLow, Bool.and_eq_false_iff]
    exact .inl (decide_eq_false (by omega))
  have hhigh : isHigh c.toNat = false := by
    rw [isHigh, Bool.and_eq_false_iff]
    exact .inl (decide_eq_false (by omega))
  rw [hexEscape, hexQuad_control h, ok_bind]
  simp only [hlow, hhigh, Char.ofNat_toNat]
  rfl

/-- **A character is read as it was written.** -/
theorem next_escape (c : Char) (rest : List Char) :
    next (escape c ++ rest) = .ok (some c, rest) := by
  rw [escape]
  split_ifs with h1 h2 h3 h4 h5 h6 h7 hcontrol
  · rw [h1]
    rfl
  · rw [h2]
    rfl
  · rw [h3]
    rfl
  · rw [h4]
    rfl
  · rw [h5]
    rfl
  · rw [h6]
    rfl
  · rw [h7]
    rfl
  · show (hexEscape _).map _ = _
    exact congrArg _ (hexEscape_control hcontrol rest)
  · -- written as it is, being neither a quote nor a backslash
    simp only [List.cons_append, List.nil_append]
    rw [next.eq_def]
    split
    · contradiction
    · rename_i heq
      cases heq
      exact absurd rfl h1
    · rename_i heq
      cases heq
      exact absurd rfl h2
    · rename_i heq
      cases heq
      rw [if_neg hcontrol]

theorem body_escape {fuel : ℕ} {cs : List Char} (h : cs.length < fuel) (rest : List Char) :
    body fuel (cs.flatMap escape ++ '"' :: rest) = .ok (cs, rest) := by
  induction cs generalizing fuel with
  | nil =>
    cases fuel with
    | zero => cases h
    | succ fuel => rfl
  | cons c cs ih =>
    cases fuel with
    | zero => cases h
    | succ fuel =>
      rw [body, List.flatMap_cons, List.append_assoc, next_escape]
      show (body fuel (cs.flatMap escape ++ '"' :: rest) >>= _) = _
      rw [ih (Nat.lt_of_succ_lt_succ h)]
      rfl

theorem length_le_flatMap_escape (cs : List Char) : cs.length ≤ (cs.flatMap escape).length := by
  induction cs with
  | nil => exact Nat.le_refl 0
  | cons c cs ih =>
    have hc : 1 ≤ (escape c).length := by
      rw [escape]
      split_ifs <;> simp
    rw [List.flatMap_cons, List.length_append, List.length_cons]
    omega

/-- **A string is read as it was written.** -/
theorem read_escape (s : String) (rest : List Char) :
    read (s.toList.flatMap escape ++ '"' :: rest) = .ok (s, rest) := by
  have hfuel : s.toList.length < (s.toList.flatMap escape ++ '"' :: rest).length + 1 := by
    have hlength := length_le_flatMap_escape s.toList
    rw [List.length_append]
    omega
  rw [read, bind_of_ok (rfl : (get : Reader _) _ = .ok (_, _)), body_escape hfuel rest]
  show Except.ok (String.ofList s.toList, rest) = _
  rw [String.ofList_toList]

end JsonText

end SplitQP
