import SplitQP.Proofs.Dense
import SplitQP.Proofs.Sparse.Products
import SplitQP.Proofs.Admm.Problem
import SplitQP.Proofs.Factor.Quasidefinite
import SplitQP.Admm.Equilibration
/-!
# Equilibration

However many rounds are made, the scaled program is the given one with
`c·D·P·D`, `c·D·q`, `E·A·D`, `E·l` and `E·u`, for positive factors
(`equilibrate_ensures`). So a scaled point stands for one in the caller's
units, and products with the scaled matrices are the scaled products
(`Scales.mulVec_P` and its companions). A semidefinite `P` stays so. Of
inexact arithmetic as much remains true as that scaling answers and
everything keeps its length (`equilibrate_ensures_fits`).
-/

namespace SplitQP

open Checked SplitQP.Dense Finset

/-- Other values leave a program sound. -/
theorem Problem.Sound.rescale {α : Type} {p : Problem α} (hp : p.Sound) {P A : Csc α}
    {q : Array α} (hP : Csc.SamePattern p.P P) (hA : Csc.SamePattern p.A A) (hq : q.size = p.n) :
    { p with P := P, A := A, q := q }.Sound where
  wellFormed_P := hP.wellFormed hp.wellFormed_P
  wellFormed_A := hA.wellFormed hp.wellFormed_A
  nrows_P := hP.nrows_eq.trans hp.nrows_P
  ncols_P := hP.ncols_eq.trans hp.ncols_P
  nrows_A := hA.nrows_eq.trans hp.nrows_A
  ncols_A := hA.ncols_eq.trans hp.ncols_A
  size_q := hq
  size_l := hp.size_l
  size_u := hp.size_u
  upper := hP.isUpperTriangular hp.wellFormed_P hp.upper

namespace Equilibration

/-! ## A round, whatever the arithmetic -/

section Rounds

variable {α : Type} [Scalar α] {s : Scaled α}

/-- **`s'` is `s` with rows and columns scaled** by the factors `e` and `d`. -/
structure Balanced (s s' : Scaled α) (d e : Array α) : Prop where
  size_d : d.size = s.problem.n
  size_e : e.size = s.problem.m
  d_eq : ∀ j < s.problem.n, ∃ v, d.getD j 0 = factorOf v
  e_eq : ∀ i < s.problem.m, ∃ v, e.getD i 0 = factorOf v
  isScaled_P : Csc.IsScaled s.problem.P d d s'.problem.P
  isScaled_A : Csc.IsScaled s.problem.A e d s'.problem.A
  eq : s' = {
    problem := { s.problem with
      P := s'.problem.P, A := s'.problem.A, q := s.problem.q.zipWith (· * ·) d }
    d := s.d.zipWith (· * ·) d
    e := s.e.zipWith (· * ·) e
    c := s.c }

/-- **Balancing answers,** and of the factors only the form matters. -/
theorem balance_ensures_balanced (hp : s.problem.Sound) (hd : s.d.size = s.problem.n)
    (he : s.e.size = s.problem.m) :
    Ensures (balance s) fun s' => ∃ d e, Balanced s s' d e := by
  have hsq : s.problem.P.nrows = s.problem.P.ncols := hp.nrows_P.trans hp.ncols_P.symm
  rw [balance]
  dsimp only
  refine (Csc.colNormsSym_ensures_size hp.wellFormed_P hsq (by simp [hp.ncols_P])).bind ?_
  intro normsP hnormsP
  refine (Csc.colNorms_ensures_size hp.wellFormed_A (by simp [hp.ncols_A])).bind ?_
  intro normsA hnormsA
  have hd' : (normsP.zipWith (fun a b => factorOf (Scalar.max a b)) normsA).size =
      s.problem.n := size_zipWith (hnormsP.trans hp.ncols_P) (hnormsA.trans hp.ncols_A)
  have hdeq : ∀ j < s.problem.n, ∃ v,
      (normsP.zipWith (fun a b => factorOf (Scalar.max a b)) normsA).getD j 0 = factorOf v := by
    intro j hj
    rw [getD_of_lt 0 (by omega), Array.getElem_zipWith]
    exact ⟨_, rfl⟩
  generalize normsP.zipWith (fun a b => factorOf (Scalar.max a b)) normsA = d at hd' hdeq
  refine (Csc.rowNorms_ensures_size hp.wellFormed_A (by simp [hp.nrows_A])).bind ?_
  intro normsR hnormsR
  have he' : (normsR.map factorOf).size = s.problem.m := by
    rw [Array.size_map, hnormsR, hp.nrows_A]
  have heeq : ∀ i < s.problem.m, ∃ v, (normsR.map factorOf).getD i 0 = factorOf v := by
    intro i hi
    rw [getD_of_lt 0 (by omega), Array.getElem_map]
    exact ⟨_, rfl⟩
  generalize normsR.map factorOf = e at he' heeq
  refine (Csc.isScaled_ensures hp.wellFormed_P (hd'.trans hp.nrows_P.symm)
    (hd'.trans hp.ncols_P.symm)).bind ?_
  intro P hP
  refine (Csc.isScaled_ensures hp.wellFormed_A (he'.trans hp.nrows_A.symm)
    (hd'.trans hp.ncols_A.symm)).bind ?_
  intro A hA
  rw [hadamard_eq_ok (hp.size_q.trans hd'.symm), ok_bind, hadamard_eq_ok (hd.trans hd'.symm),
    ok_bind, hadamard_eq_ok (he.trans he'.symm), ok_bind]
  exact .ok ⟨d, e, hd', he', hdeq, heeq, hP, hA, rfl⟩

/-- **Scaling the objective answers,** by the reciprocal of some size. -/
theorem scaleObjective_ensures_eq (hp : s.problem.Sound) :
    Ensures (scaleObjective s) fun s' => ∃ v, s' = { s with
      problem := { s.problem with
        P := s.problem.P.scale (Scalar.recip (limit v))
        q := Dense.scale (Scalar.recip (limit v)) s.problem.q }
      c := s.c * Scalar.recip (limit v) } := by
  have hsq : s.problem.P.nrows = s.problem.P.ncols := hp.nrows_P.trans hp.ncols_P.symm
  rw [scaleObjective]
  dsimp only
  refine (Csc.colNormsSym_ensures_size hp.wellFormed_P hsq (by simp [hp.ncols_P])).bind ?_
  intro norms _
  exact .ok ⟨_, rfl⟩

/-- **A sound program of `n` variables and `m` constraints,** and as many factors. -/
structure Scaled.Fits (n m : ℕ) (s : Scaled α) : Prop where
  sound : s.problem.Sound
  n_eq : s.problem.n = n
  m_eq : s.problem.m = m
  size_d : s.d.size = n
  size_e : s.e.size = m

variable {n m : ℕ}

theorem balance_ensures_fits (h : s.Fits n m) : Ensures (balance s) (Scaled.Fits n m) := by
  refine (balance_ensures_balanced h.sound (h.size_d.trans h.n_eq.symm)
    (h.size_e.trans h.m_eq.symm)).mono ?_
  rintro s' ⟨d, e, hb⟩
  have hsound := h.sound.rescale hb.isScaled_P.samePattern hb.isScaled_A.samePattern
    (size_zipWith (f := (· * ·)) h.sound.size_q hb.size_d)
  rw [hb.eq]
  exact ⟨hsound, h.n_eq, h.m_eq, size_zipWith h.size_d (hb.size_d.trans h.n_eq),
    size_zipWith h.size_e (hb.size_e.trans h.m_eq)⟩

theorem scaleObjective_ensures_fits (h : s.Fits n m) :
    Ensures (scaleObjective s) (Scaled.Fits n m) := by
  refine (scaleObjective_ensures_eq h.sound).mono ?_
  rintro s' ⟨v, rfl⟩
  exact { h with
    sound := h.sound.rescale (Csc.samePattern_scale _ _) ⟨rfl, rfl, rfl, rfl, rfl⟩
      (size_scale.trans h.sound.size_q) }

theorem rounds_ensures_fits (count : ℕ) (h : s.Fits n m) :
    Ensures (rounds count s) (Scaled.Fits n m) := by
  induction count generalizing s with
  | zero => exact .ok h
  | succ count ih =>
    rw [rounds]
    refine (balance_ensures_fits h).bind fun s₁ h₁ => ?_
    exact (scaleObjective_ensures_fits h₁).bind fun s₂ h₂ => ih h₂

/-- As many factors and inverses as there are variables and constraints. -/
structure Fits (n m : ℕ) (eq : Equilibration α) : Prop where
  size_d : eq.d.size = n
  size_dinv : eq.dinv.size = n
  size_e : eq.e.size = m
  size_einv : eq.einv.size = m

/-- **Scaling answers,** whatever the numbers are. -/
theorem equilibrate_ensures_fits {p : Problem α} (hp : p.Sound) (count : ℕ) :
    Ensures (equilibrate count p) fun r =>
      r.1.Sound ∧ r.1.n = p.n ∧ r.1.m = p.m ∧ r.2.Fits p.n p.m := by
  rw [equilibrate]
  refine (rounds_ensures_fits count (s := ⟨p, constant p.n 1, constant p.m 1, 1⟩)
    ⟨hp, rfl, rfl, size_constant, size_constant⟩).bind ?_
  rintro s h
  rw [hadamard_eq_ok (hp.size_l.trans h.size_e.symm), ok_bind,
    hadamard_eq_ok (hp.size_u.trans h.size_e.symm), ok_bind]
  refine .ok ⟨?_, h.n_eq, h.m_eq, ?_⟩
  · exact { h.sound with
      size_l := (size_zipWith hp.size_l h.size_e).trans h.m_eq.symm
      size_u := (size_zipWith hp.size_u h.size_e).trans h.m_eq.symm }
  · exact ⟨h.size_d, by simp [h.size_d], h.size_e, by simp [h.size_e]⟩

end Rounds

/-! ## In exact arithmetic -/

variable {K : Type} [ExactField K]

theorem limit_pos (v : K) : 0 < limit v := by
  rw [limit]
  split_ifs with h1 h2
  · exact one_pos
  · rw [maxScaling]
    norm_num
  · rw [ExactField.lt_iff, not_lt, minScaling] at h1
    exact lt_of_lt_of_le (by norm_num) h1

/-- A factor is positive, whatever the magnitude it is for. -/
theorem factorOf_pos (v : K) : 0 < factorOf v := by
  rw [factorOf, ExactField.recip_eq]
  exact inv_pos.mpr (ExactField.sqrt_pos (limit_pos v))

/-- **`p` is `p₀` scaled** by the factors `d`, `e` and `c`. Bounds are left
alone. -/
structure Scales (p₀ : Problem K) (d e : Array K) (c : K) (p : Problem K) : Prop where
  sound : p.Sound
  n_eq : p.n = p₀.n
  m_eq : p.m = p₀.m
  crossedBounds_eq : p.crossedBounds = p₀.crossedBounds
  size_d : d.size = p₀.n
  size_e : e.size = p₀.m
  d_pos : ∀ j < p₀.n, 0 < d.getD j 0
  e_pos : ∀ i < p₀.m, 0 < e.getD i 0
  c_pos : 0 < c
  P_eq : ∀ i, ∀ j < p₀.n, p.P.coeff i j = c * (d.getD i 0 * p₀.P.coeff i j * d.getD j 0)
  A_eq : ∀ i, ∀ j < p₀.n, p.A.coeff i j = e.getD i 0 * p₀.A.coeff i j * d.getD j 0
  q_eq : ∀ j < p₀.n, p.q.getD j 0 = c * (d.getD j 0 * p₀.q.getD j 0)

variable {p₀ : Problem K} {s : Scaled K}

/-- Entrywise products of positive vectors are positive. -/
theorem getD_mul_pos {n : ℕ} {x y : Array K} (hx : x.size = n) (hy : y.size = n)
    (hxpos : ∀ j < n, 0 < x.getD j 0) (hypos : ∀ j < n, 0 < y.getD j 0) :
    ∀ j < n, 0 < (x.zipWith (· * ·) y).getD j 0 := by
  intro j hj
  rw [getD_zipWith_of_lt hx hy hj]
  exact mul_pos (hxpos j hj) (hypos j hj)

theorem getD_mul {n : ℕ} {x y : Array K} (hx : x.size = n) (hy : y.size = n) (j : ℕ) :
    (x.zipWith (· * ·) y).getD j 0 = x.getD j 0 * y.getD j 0 := by
  rcases Nat.lt_or_ge j n with hj | hj
  · exact getD_zipWith_of_lt hx hy hj
  · rw [Csc.getD_of_ge (by simp; omega), Csc.getD_of_ge (by omega), zero_mul]

namespace Scales

variable {d e : Array K} {c : K} {p : Problem K} (h : Scales p₀ d e c p)

include h

/-- **Further factors** for rows and columns are multiplied to those there are. -/
theorem rescale {d' e' : Array K} (hd : d'.size = p₀.n) (he : e'.size = p₀.m)
    (hdpos : ∀ j < p₀.n, 0 < d'.getD j 0) (hepos : ∀ i < p₀.m, 0 < e'.getD i 0) {P A : Csc K}
    (hP : Csc.IsScaled p.P d' d' P) (hA : Csc.IsScaled p.A e' d' A) :
    Scales p₀ (d.zipWith (· * ·) d') (e.zipWith (· * ·) e') c
      { p with P := P, A := A, q := p.q.zipWith (· * ·) d' } := by
  have hp := h.sound
  have hn := h.n_eq
  have hsizeq : p.q.size = p₀.n := hp.size_q.trans hn
  exact {
    sound := hp.rescale hP.samePattern hA.samePattern ((size_zipWith hsizeq hd).trans hn.symm)
    n_eq := hn
    m_eq := h.m_eq
    crossedBounds_eq := h.crossedBounds_eq
    size_d := size_zipWith h.size_d hd
    size_e := size_zipWith h.size_e he
    d_pos := getD_mul_pos h.size_d hd h.d_pos hdpos
    e_pos := getD_mul_pos h.size_e he h.e_pos hepos
    c_pos := h.c_pos
    P_eq := by
      intro i j hj
      rw [hP.coeff_eq (by rw [hp.ncols_P, hn]; exact hj), h.P_eq i j hj, getD_mul h.size_d hd,
        getD_mul h.size_d hd]
      ring
    A_eq := by
      intro i j hj
      rw [hA.coeff_eq (by rw [hp.ncols_A, hn]; exact hj), h.A_eq i j hj, getD_mul h.size_d hd,
        getD_mul h.size_e he]
      ring
    q_eq := by
      intro j hj
      rw [getD_mul hsizeq hd, h.q_eq j hj, getD_mul h.size_d hd]
      ring }

/-- **A further factor** for the objective, likewise. -/
theorem rescaleObjective {c' : K} (hpos : 0 < c') :
    Scales p₀ d e (c * c') { p with P := p.P.scale c', q := Dense.scale c' p.q } := by
  have hp := h.sound
  exact { h with
    sound := hp.rescale (Csc.samePattern_scale p.P c') ⟨rfl, rfl, rfl, rfl, rfl⟩
      (size_scale.trans hp.size_q)
    c_pos := mul_pos h.c_pos hpos
    P_eq := by
      intro i j hj
      rw [Csc.coeff_scale, h.P_eq i j hj]
      ring
    q_eq := by
      intro j hj
      rw [Dense.scale, getD_map 0 0 (by rw [hp.size_q, h.n_eq]; exact hj), h.q_eq j hj]
      ring }

end Scales

/-- **Balancing scales.** -/
theorem balance_ensures (h : Scales p₀ s.d s.e s.c s.problem) : Ensures (balance s) fun s' =>
    Scales p₀ s'.d s'.e s'.c s'.problem ∧ s'.problem.l = s.problem.l ∧
      s'.problem.u = s.problem.u := by
  have hn := h.n_eq
  have hm := h.m_eq
  refine (balance_ensures_balanced h.sound (h.size_d.trans hn.symm)
    (h.size_e.trans hm.symm)).mono ?_
  rintro s' ⟨d, e, hb⟩
  have hdpos : ∀ j < p₀.n, 0 < d.getD j 0 := by
    intro j hj
    obtain ⟨v, hv⟩ := hb.d_eq j (by rw [hn]; exact hj)
    rw [hv]
    exact factorOf_pos v
  have hepos : ∀ i < p₀.m, 0 < e.getD i 0 := by
    intro i hi
    obtain ⟨v, hv⟩ := hb.e_eq i (by rw [hm]; exact hi)
    rw [hv]
    exact factorOf_pos v
  have hscales := h.rescale (hb.size_d.trans hn) (hb.size_e.trans hm) hdpos hepos hb.isScaled_P
    hb.isScaled_A
  rw [hb.eq]
  exact ⟨hscales, rfl, rfl⟩

/-- **Scaling the objective scales.** -/
theorem scaleObjective_ensures (h : Scales p₀ s.d s.e s.c s.problem) :
    Ensures (scaleObjective s) fun s' =>
      Scales p₀ s'.d s'.e s'.c s'.problem ∧ s'.problem.l = s.problem.l ∧
        s'.problem.u = s.problem.u := by
  refine (scaleObjective_ensures_eq h.sound).mono ?_
  rintro s' ⟨v, rfl⟩
  have hpos : 0 < Scalar.recip (limit v) := by
    rw [ExactField.recip_eq]
    exact inv_pos.mpr (limit_pos v)
  exact ⟨h.rescaleObjective hpos, rfl, rfl⟩

/-- **Any number of rounds scales.** -/
theorem rounds_ensures (count : ℕ) (h : Scales p₀ s.d s.e s.c s.problem) :
    Ensures (rounds count s) fun s' =>
      Scales p₀ s'.d s'.e s'.c s'.problem ∧ s'.problem.l = s.problem.l ∧
        s'.problem.u = s.problem.u := by
  induction count generalizing s with
  | zero => exact .ok ⟨h, rfl, rfl⟩
  | succ count ih =>
    rw [rounds]
    refine (balance_ensures h).bind ?_
    rintro s₁ ⟨h₁, hl₁, hu₁⟩
    refine (scaleObjective_ensures h₁).bind ?_
    rintro s₂ ⟨h₂, hl₂, hu₂⟩
    refine (ih h₂).mono ?_
    rintro s₃ ⟨h₃, hl₃, hu₃⟩
    exact ⟨h₃, hl₃.trans (hl₂.trans hl₁), hu₃.trans (hu₂.trans hu₁)⟩

variable {p : Problem K} {eq : Equilibration K}

/-- **`p` is `p₀` under the scaling `eq`.** -/
structure Equilibrated (p₀ p : Problem K) (eq : Equilibration K) : Prop where
  scales : Scales p₀ eq.d eq.e eq.c p
  dinv_eq : eq.dinv = eq.d.map Scalar.recip
  einv_eq : eq.einv = eq.e.map Scalar.recip
  cinv_eq : eq.cinv = Scalar.recip eq.c
  l_eq : ∀ i < p₀.m, p.l.getD i 0 = p₀.l.getD i 0 * eq.e.getD i 0
  u_eq : ∀ i < p₀.m, p.u.getD i 0 = p₀.u.getD i 0 * eq.e.getD i 0

namespace Equilibrated

variable (h : Equilibrated p₀ p eq)

include h

theorem size_d : eq.d.size = p.n := h.scales.size_d.trans h.scales.n_eq.symm

theorem size_e : eq.e.size = p.m := h.scales.size_e.trans h.scales.m_eq.symm

theorem fits : eq.Fits p.n p.m where
  size_d := h.size_d
  size_dinv := by rw [h.dinv_eq, Array.size_map, h.size_d]
  size_e := h.size_e
  size_einv := by rw [h.einv_eq, Array.size_map, h.size_e]

end Equilibrated

/-- No factors at all. -/
theorem scales_self (hp : p.Sound) : Scales p (constant p.n 1) (constant p.m 1) 1 p where
  sound := hp
  n_eq := rfl
  m_eq := rfl
  crossedBounds_eq := rfl
  size_d := size_constant
  size_e := size_constant
  d_pos j hj := by
    rw [getD_constant hj]
    exact one_pos
  e_pos i hi := by
    rw [getD_constant hi]
    exact one_pos
  c_pos := one_pos
  P_eq i j hj := by
    rcases Nat.lt_or_ge i p.n with hi | hi
    · rw [getD_constant hi, getD_constant hj]
      ring
    · rw [hp.wellFormed_P.coeff_of_ge (by rw [hp.nrows_P]; exact hi)]
      ring
  A_eq i j hj := by
    rcases Nat.lt_or_ge i p.m with hi | hi
    · rw [getD_constant hi, getD_constant hj]
      ring
    · rw [hp.wellFormed_A.coeff_of_ge (by rw [hp.nrows_A]; exact hi)]
      ring
  q_eq j hj := by
    rw [getD_constant hj]
    ring

/-- **Every sound program can be scaled,** in any number of rounds. -/
theorem equilibrate_ensures (hp : p₀.Sound) (count : ℕ) :
    Ensures (equilibrate count p₀) fun r => Equilibrated p₀ r.1 r.2 := by
  rw [equilibrate]
  refine (rounds_ensures count (s := ⟨p₀, constant p₀.n 1, constant p₀.m 1, 1⟩)
    (scales_self hp)).bind ?_
  rintro s ⟨h, hl, hu⟩
  have hs := h.sound
  have hle : p₀.l.size = s.e.size := hp.size_l.trans h.size_e.symm
  have hue : p₀.u.size = s.e.size := hp.size_u.trans h.size_e.symm
  rw [hadamard_eq_ok hle, ok_bind, hadamard_eq_ok hue, ok_bind]
  refine .ok ⟨?_, rfl, rfl, rfl, fun i _ => getD_mul hle rfl i, fun i _ => getD_mul hue rfl i⟩
  exact { h with
    sound := { hs with
      size_l := by simp [hp.size_l, h.size_e, h.m_eq]
      size_u := by simp [hp.size_u, h.size_e, h.m_eq] } }

/-! ## Points in the caller's units -/

/-- `x = D·x̄`. -/
def primal (eq : Equilibration K) (n : ℕ) (x : Array K) : Fin n → K :=
  fun j => eq.d.getD j 0 * x.getD j 0

/-- `z = E⁻¹·z̄`. -/
def slack (eq : Equilibration K) (m : ℕ) (z : Array K) : Fin m → K :=
  fun i => (eq.e.getD i 0)⁻¹ * z.getD i 0

/-- `y = E·ȳ / c`. -/
def dual (eq : Equilibration K) (m : ℕ) (y : Array K) : Fin m → K :=
  fun i => eq.e.getD i 0 * y.getD i 0 / eq.c

namespace Scales

variable {d e : Array K} {c : K} {n m : ℕ} (h : Scales p₀ d e c p)

include h

theorem symCoeff_P {i j : ℕ} (hi : i < p₀.n) (hj : j < p₀.n) :
    p.P.symCoeff i j = c * (d.getD i 0 * p₀.P.symCoeff i j * d.getD j 0) := by
  rw [Csc.symCoeff_eq, Csc.symCoeff_eq, h.P_eq i i hi, h.P_eq i j hj, h.P_eq j i hi]
  split_ifs with hij
  · rw [hij]
  · ring

/-- The quadratic part at a scaled point. -/
theorem mulVec_P (hn : p₀.n = n) (v : Fin n → K) (j : Fin n) :
    (p.P.toSymMatrix n).mulVec v j =
      c * (d.getD j 0 * (p₀.P.toSymMatrix n).mulVec (fun k => d.getD k 0 * v k) j) := by
  subst hn
  simp only [Matrix.mulVec, dotProduct, Csc.toSymMatrix, Matrix.of_apply, mul_sum]
  refine sum_congr rfl fun k _ => ?_
  rw [h.symCoeff_P j.isLt k.isLt]
  ring

/-- The constraints at a scaled point. -/
theorem mulVec_A (hn : p₀.n = n) (v : Fin n → K) (i : Fin m) :
    (p.A.toMatrix m n).mulVec v i =
      e.getD i 0 * (p₀.A.toMatrix m n).mulVec (fun k => d.getD k 0 * v k) i := by
  subst hn
  simp only [Matrix.mulVec, dotProduct, Csc.toMatrix, Matrix.of_apply, mul_sum]
  refine sum_congr rfl fun k _ => ?_
  rw [h.A_eq i k k.isLt]
  ring

/-- Scaled multipliers, through the constraints. -/
theorem mulVec_transpose_A (hn : p₀.n = n) (v : Fin m → K) (j : Fin n) :
    (p.A.toMatrix m n).transpose.mulVec v j =
      c * (d.getD j 0 *
        (p₀.A.toMatrix m n).transpose.mulVec (fun i => e.getD i 0 * v i / c) j) := by
  subst hn
  have hc := h.c_pos.ne'
  simp only [Matrix.mulVec, dotProduct, Matrix.transpose_apply, Csc.toMatrix, Matrix.of_apply,
    mul_sum]
  refine sum_congr rfl fun i _ => ?_
  rw [h.A_eq i j j.isLt]
  field_simp

/-- **Scaling keeps a program convex.** -/
theorem isSemidefinite (hn : p₀.n = n) (hpsd : IsSemidefinite (p₀.P.toSymMatrix n)) :
    IsSemidefinite (p.P.toSymMatrix n) := by
  intro v
  have hform : ∑ j, v j * (p.P.toSymMatrix n).mulVec v j =
      c * ∑ j : Fin n, d.getD j 0 * v j *
        (p₀.P.toSymMatrix n).mulVec (fun k => d.getD k 0 * v k) j := by
    rw [mul_sum]
    refine sum_congr rfl fun j _ => ?_
    rw [h.mulVec_P hn]
    ring
  rw [hform]
  exact mul_nonneg h.c_pos.le (hpsd _)

end Scales

end Equilibration

end SplitQP
