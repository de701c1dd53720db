import SplitQP.Proofs.Exact
import SplitQP.Proofs.Answers
/-!
# Dense vectors

An operation on vectors of equal length answers what it should
(`hadamard_eq_ok` and its like). In exact arithmetic the largest
magnitude is the maximum norm `maxNorm`, which bounds every entry
(`abs_le_maxNorm`).
-/

namespace SplitQP

open Checked

namespace Dense

/-! ## Equal lengths -/

section Lengths

variable {α : Type} [Scalar α] {x y : Array α}

omit [Scalar α] in
theorem size_zipWith {β γ : Type} {f : α → β → γ} {n : ℕ} {x : Array α} {y : Array β}
    (hx : x.size = n) (hy : y.size = n) : (x.zipWith f y).size = n := by
  rw [Array.size_zipWith, hx, hy, min_self]

/-- An entry of two arrays of one length. -/
theorem getD_zipWith_of_lt {f : α → α → α} {n i : ℕ} (hx : x.size = n) (hy : y.size = n)
    (hi : i < n) : (x.zipWith f y).getD i 0 = f (x.getD i 0) (y.getD i 0) :=
  getD_zipWith 0 0 0 (by rw [hx]; exact hi) (by rw [hy]; exact hi)

theorem hadamard_eq_ok (h : x.size = y.size) : hadamard x y = .ok (x.zipWith (· * ·) y) := by
  rw [hadamard, require_eq_ok h]
  rfl

theorem dot_eq_ok (h : x.size = y.size) :
    dot x y = .ok ((x.zipWith (· * ·) y).foldl (· + ·) 0) := by
  rw [dot, require_eq_ok h]
  rfl

theorem normInfScaled_eq_ok (h : x.size = y.size) :
    normInfScaled x y = .ok (largest (x.zipWith (· * ·) y).toList) := by
  rw [normInfScaled, require_eq_ok h]
  rfl

omit [Scalar α] in
theorem copyTo_eq_ok (h : x.size = y.size) : copyTo x y = .ok y := by
  rw [copyTo, require_eq_ok h]
  rfl

theorem combine_eq_ok (a b : α) (h : x.size = y.size) :
    combine a x b y = .ok (x.zipWith (fun u v => a * u + b * v) y) := by
  rw [combine, require_eq_ok h]
  rfl

theorem combineTo_eq_ok {dst : Array α} (a b : α) (hdst : dst.size = x.size)
    (h : x.size = y.size) :
    combineTo dst a x b y = .ok (x.zipWith (fun u v => a * u + b * v) y) := by
  rw [combineTo, require_eq_ok hdst, ok_bind, combine_eq_ok a b h]

/-! ### Written over what was there -/

variable {dst dst' r : Array α}

omit [Scalar α] in
theorem copyTo_of_size (h : dst.size = dst'.size) : copyTo dst x = copyTo dst' x := by
  rw [copyTo, copyTo, h]

theorem combineTo_of_size (h : dst.size = dst'.size) {a b : α} :
    combineTo dst a x b y = combineTo dst' a x b y := by
  rw [combineTo, combineTo, h]

omit [Scalar α] in
theorem size_of_copyTo (h : copyTo dst x = .ok r) : r.size = dst.size := by
  obtain ⟨_, hsize, hr⟩ := bind_eq_ok.mp h
  cases hr
  exact (require_eq_ok_iff.mp hsize).symm

theorem size_of_hadamard (h : hadamard x y = .ok r) : r.size = x.size := by
  obtain ⟨_, hsize, hr⟩ := bind_eq_ok.mp h
  cases hr
  exact size_zipWith rfl (require_eq_ok_iff.mp hsize).symm

theorem size_of_combineTo {a b : α} (h : combineTo dst a x b y = .ok r) :
    r.size = dst.size := by
  obtain ⟨_, hdst, hcombine⟩ := bind_eq_ok.mp h
  obtain ⟨_, hsize, hr⟩ := bind_eq_ok.mp hcombine
  cases hr
  rw [require_eq_ok_iff] at hdst hsize
  exact size_zipWith hdst.symm (hsize.symm.trans hdst.symm)

end Lengths

/-! ## Two parts -/

section Parts

variable {α : Type} [Scalar α] {n m : ℕ}

omit [Scalar α] in
/-- Two parts of given lengths. -/
theorem exists_append_of_size {x : Array α} (h : x.size = n + m) :
    ∃ y z, y.size = n ∧ z.size = m ∧ x = y ++ z := by
  refine ⟨x.extract 0 n, x.extract n x.size, by simp [h], by simp [h], ?_⟩
  rw [Array.extract_append_extract, Nat.zero_min, Nat.max_eq_right (by omega), Array.extract_size]

omit [Scalar α] in
theorem extract_append_top {x y : Array α} (hx : x.size = n) : (x ++ y).extract 0 n = x := by
  rw [← hx, Array.extract_append_left, Array.extract_size]

omit [Scalar α] in
theorem extract_append_bottom {x y : Array α} (hx : x.size = n) :
    (x ++ y).extract n (x ++ y).size = y := by
  rw [← hx, Array.size_append, Array.extract_append_right, Array.extract_size]

theorem vec_append_castAdd {x y : Array α} (hx : x.size = n) (j : Fin n) :
    vec (n + m) (x ++ y) (Fin.castAdd m j) = vec n x j := by
  have hj : (j : ℕ) < x.size := by omega
  rw [vec, vec, Fin.val_castAdd, getD_of_lt 0 (by simp; omega), getD_of_lt 0 hj,
    Array.getElem_append_left hj]

theorem vec_append_natAdd {x y : Array α} (hx : x.size = n) (hy : y.size = m) (k : Fin m) :
    vec (n + m) (x ++ y) (Fin.natAdd n k) = vec m y k := by
  have hk : (k : ℕ) < y.size := by omega
  rw [vec, vec, Fin.val_natAdd, getD_of_lt 0 (by simp; omega), getD_of_lt 0 hk,
    Array.getElem_append_right (by omega)]
  congr 1
  omega

end Parts

/-! ## In exact arithmetic -/

variable {K : Type} [ExactField K]

/-- The entries of an array of length `n`, as a list. -/
theorem toList_eq_ofFn {n : ℕ} {x : Array K} (h : x.size = n) :
    x.toList = List.ofFn (vec n x) := by
  apply List.ext_getElem
  · simp [h]
  · intro i h1 h2
    rw [List.getElem_ofFn, vec, getD_of_lt 0 (by simpa using h1), Array.getElem_toList]

/-- An array is its entries. -/
theorem eq_of_vec {n : ℕ} {x y : Array K} (hx : x.size = n) (hy : y.size = n)
    (h : vec n x = vec n y) : x = y :=
  ext_getD 0 hx hy fun i hi => congrFun h ⟨i, hi⟩

theorem eq_of_getD {n : ℕ} {x y : Array K} (hx : x.size = n) (hy : y.size = n)
    (h : ∀ i < n, x.getD i 0 = y.getD i 0) : x = y := ext_getD 0 hx hy h

theorem vec_zipWith {n : ℕ} {x y : Array K} {f : K → K → K} (hx : x.size = n) (hy : y.size = n) :
    vec n (x.zipWith f y) = fun i => f (vec n x i) (vec n y i) := by
  funext i
  exact getD_zipWith_of_lt hx hy i.isLt

theorem vec_map {n : ℕ} {x : Array K} {f : K → K} (hx : x.size = n) :
    vec n (x.map f) = fun i => f (vec n x i) := by
  funext i
  exact getD_map 0 0 (by omega)

/-- The sum of the entries. -/
theorem foldl_add_eq_sum {n : ℕ} {x : Array K} (h : x.size = n) :
    x.foldl (· + ·) 0 = ∑ i, vec n x i := by
  have hfold : ∀ (l : List K) (a : K), l.foldl (· + ·) a = a + l.sum := by
    intro l
    induction l with
    | nil => simp
    | cons v l ih =>
      intro a
      rw [List.foldl_cons, ih, List.sum_cons, add_assoc]
  rw [← Array.foldl_toList, hfold, zero_add, toList_eq_ofFn h, List.sum_ofFn]

/-- **The maximum norm,** zero of the empty vector. -/
def maxNorm {n : ℕ} (v : Fin n → K) : K := (List.ofFn v).foldr (fun x t => max |x| t) 0

theorem maxNorm_nonneg {n : ℕ} (v : Fin n → K) : 0 ≤ maxNorm v := by
  rw [maxNorm]
  induction List.ofFn v with
  | nil => exact le_rfl
  | cons x l ih => exact ih.trans (le_max_right _ _)

/-- **No entry exceeds the maximum norm.** -/
theorem abs_le_maxNorm {n : ℕ} (v : Fin n → K) (i : Fin n) : |v i| ≤ maxNorm v := by
  have h : ∀ l : List K, ∀ x ∈ l, |x| ≤ l.foldr (fun x t => max |x| t) 0 := by
    intro l
    induction l with
    | nil => simp
    | cons y l ih =>
      intro x hx
      rcases List.mem_cons.mp hx with rfl | hx
      · exact le_max_left _ _
      · exact (ih x hx).trans (le_max_right _ _)
  exact h _ _ (List.mem_ofFn.mpr ⟨i, rfl⟩)

theorem maxNorm_le_iff {n : ℕ} {v : Fin n → K} {t : K} (ht : 0 ≤ t) :
    maxNorm v ≤ t ↔ ∀ i, |v i| ≤ t := by
  refine ⟨fun h i => (abs_le_maxNorm v i).trans h, fun h => ?_⟩
  have hall : ∀ l : List K, (∀ x ∈ l, |x| ≤ t) → l.foldr (fun x t => max |x| t) 0 ≤ t := by
    intro l
    induction l with
    | nil => exact fun _ => ht
    | cons x l ih =>
      intro hl
      exact max_le (hl x List.mem_cons_self) (ih fun y hy => hl y (List.mem_cons_of_mem x hy))
  refine hall _ fun x hx => ?_
  obtain ⟨i, rfl⟩ := List.mem_ofFn.mp hx
  exact h i

/-- A product is bounded by the largest entry and the sum of the others. -/
theorem dotProduct_le {n : ℕ} (g w : Fin n → K) : dotProduct g w ≤ maxNorm g * ∑ j, |w j| := by
  rw [Finset.mul_sum]
  refine Finset.sum_le_sum fun j _ => ?_
  calc g j * w j ≤ |g j * w j| := le_abs_self _
    _ = |g j| * |w j| := abs_mul _ _
    _ ≤ maxNorm g * |w j| := mul_le_mul_of_nonneg_right (abs_le_maxNorm g j) (abs_nonneg _)

/-- The norm of a multiple. -/
theorem maxNorm_mul {n : ℕ} {c : K} (hc : 0 ≤ c) (v : Fin n → K) :
    maxNorm (fun i => c * v i) = c * maxNorm v := by
  have h : ∀ l : List K, (l.map (c * ·)).foldr (fun x t => max |x| t) 0 =
      c * l.foldr (fun x t => max |x| t) 0 := by
    intro l
    induction l with
    | nil => exact (mul_zero c).symm
    | cons x l ih =>
      rw [List.map_cons, List.foldr_cons, ih, List.foldr_cons, mul_max_of_nonneg _ _ hc, abs_mul,
        abs_of_nonneg hc]
  rw [maxNorm, maxNorm, ← h, List.map_ofFn]
  rfl

@[simp] theorem maxNorm_zero {n : ℕ} : maxNorm (0 : Fin n → K) = 0 := by
  have hzero := maxNorm_mul le_rfl (0 : Fin n → K)
  rw [zero_mul] at hzero
  rw [← hzero]
  congr 1
  funext i
  exact (zero_mul _).symm

/-- The largest magnitude is the maximum norm. -/
theorem largest_eq_maxNorm {n : ℕ} {x : Array K} (h : x.size = n) :
    largest x.toList = maxNorm (vec n x) := by
  have hfrom : ∀ (l : List K) (out : K), 0 ≤ out →
      largestFrom out l = max out (l.foldr (fun x t => max |x| t) 0) := by
    intro l
    induction l with
    | nil =>
      intro out hout
      exact (max_eq_left hout).symm
    | cons v l ih =>
      intro out hout
      have hstep : (if Scalar.lt out (Scalar.abs v) = true then Scalar.abs v else out) =
          max out |v| := by
        rw [max_def_lt]
        simp only [ExactField.lt_iff, ExactField.abs_eq]
      rw [largestFrom]
      simp only [ExactField.isNaN_eq, Bool.false_eq_true, if_false]
      rw [hstep, ih _ (hout.trans (le_max_left _ _)), List.foldr_cons, max_assoc]
  have hnn := maxNorm_nonneg (vec n x)
  rw [largest, hfrom _ _ le_rfl, toList_eq_ofFn h]
  exact max_eq_right hnn

end Dense

end SplitQP
