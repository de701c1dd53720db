import SplitQP.Proofs.Admm.Residuals
import SplitQP.Proofs.Admm.Solver
/-!
# Scaling is undone

The scaled program holds `c·D·P·D`, `c·D·q`, `E·A·D`, `E·l` and `E·u`, entries
where they stood, for positive factors whose inverses are at hand (`Conjugated`).
That is all that residuals, objective and tolerances depend on: the same numbers
come out as without any scaling, at the point in the caller's units
(`undone_of_ofData`).
-/

namespace SplitQP

open Checked SplitQP.Dense

namespace Equilibration

/-! ## Where entries stand -/

section Pattern

variable {α : Type} [Scalar α] {n m count : ℕ} {s s' : Scaled α}

/-- **The entries of both matrices stand where they stood.** -/
structure SamePlaces (p p' : Problem α) : Prop where
  samePattern_P : Csc.SamePattern p.P p'.P
  samePattern_A : Csc.SamePattern p.A p'.A

theorem samePlaces_of_balance (h : s.Fits n m) (hs : balance s = .ok s') :
    SamePlaces s.problem s'.problem := by
  obtain ⟨d, e, hb⟩ := (balance_ensures_balanced h.sound (h.size_d.trans h.n_eq.symm)
    (h.size_e.trans h.m_eq.symm)).of_eq_ok hs
  exact ⟨hb.isScaled_P.samePattern, hb.isScaled_A.samePattern⟩

theorem samePlaces_of_scaleObjective (h : s.Fits n m) (hs : scaleObjective s = .ok s') :
    SamePlaces s.problem s'.problem := by
  obtain ⟨v, rfl⟩ := (scaleObjective_ensures_eq h.sound).of_eq_ok hs
  exact ⟨Csc.samePattern_scale _ _, .refl _⟩

omit [Scalar α] in
theorem SamePlaces.trans {p p' p'' : Problem α} (h : SamePlaces p p') (h' : SamePlaces p' p'') :
    SamePlaces p p'' :=
  ⟨h.samePattern_P.trans h'.samePattern_P, h.samePattern_A.trans h'.samePattern_A⟩

theorem samePlaces_of_rounds (h : s.Fits n m) (hs : rounds count s = .ok s') :
    SamePlaces s.problem s'.problem := by
  induction count generalizing s with
  | zero =>
    cases hs
    exact ⟨.refl _, .refl _⟩
  | succ count ih =>
    obtain ⟨s₁, hbalance, hs⟩ := bind_eq_ok.mp hs
    obtain ⟨s₂, hobjective, hs⟩ := bind_eq_ok.mp hs
    have h₁ := (balance_ensures_fits h).of_eq_ok hbalance
    have h₂ := (scaleObjective_ensures_fits h₁).of_eq_ok hobjective
    exact (samePlaces_of_balance h hbalance).trans
      ((samePlaces_of_scaleObjective h₁ hobjective).trans (ih h₂ hs))

/-- **Scaling moves no entry,** whatever the arithmetic. -/
theorem samePlaces_of_equilibrate {p : Problem α} {r : Problem α × Equilibration α}
    (hp : p.Sound) (hr : equilibrate count p = .ok r) : SamePlaces p r.1 := by
  obtain ⟨s, hs, hr⟩ := bind_eq_ok.mp hr
  obtain ⟨l, -, hr⟩ := bind_eq_ok.mp hr
  obtain ⟨u, -, hr⟩ := bind_eq_ok.mp hr
  cases hr
  obtain ⟨hP, hA⟩ := samePlaces_of_rounds (s := ⟨p, constant p.n 1, constant p.m 1, 1⟩)
    ⟨hp, rfl, rfl, size_constant, size_constant⟩ hs
  exact ⟨hP, hA⟩

end Pattern

/-! ## The data -/

variable {K : Type} [ExactField K] {p₀ p : Problem K} {eq : Equilibration K} {n m : ℕ}

/-- **`p` holds the data of `p₀`,** multiplied by positive factors `D`, `E` and `c`
whose inverses are at hand. -/
structure Conjugated (n m : ℕ) (p₀ p : Problem K) (eq : Equilibration K) : Prop where
  size_d : eq.d.size = n
  size_e : eq.e.size = m
  d_pos : ∀ j, 0 < vec n eq.d j
  e_pos : ∀ i, 0 < vec m eq.e i
  c_pos : 0 < eq.c
  dinv_eq : vec n eq.dinv = (vec n eq.d)⁻¹
  einv_eq : vec m eq.einv = (vec m eq.e)⁻¹
  cinv_eq : eq.cinv = eq.c⁻¹
  places : SamePlaces p₀ p
  /-- What is stored, and with it the symmetric matrix it stands for. -/
  P_eq : p.P.toMatrix n n = eq.c •
      (Matrix.diagonal (vec n eq.d) * p₀.P.toMatrix n n * Matrix.diagonal (vec n eq.d)) ∧
    p.P.toSymMatrix n = eq.c •
      (Matrix.diagonal (vec n eq.d) * p₀.P.toSymMatrix n * Matrix.diagonal (vec n eq.d))
  q_eq : vec n p.q = eq.c • (vec n eq.d * vec n p₀.q)
  A_eq : p.A.toMatrix m n =
    Matrix.diagonal (vec m eq.e) * p₀.A.toMatrix m n * Matrix.diagonal (vec n eq.d)
  l_eq : vec m p.l = vec m eq.e * vec m p₀.l
  u_eq : vec m p.u = vec m eq.e * vec m p₀.u

theorem Equilibrated.conjugated (h : Equilibrated p₀ p eq) (hplaces : SamePlaces p₀ p)
    (hn : p₀.n = n) (hm : p₀.m = m) : Conjugated n m p₀ p eq := by
  have hs := h.scales
  subst hn hm
  exact {
    size_d := hs.size_d
    size_e := hs.size_e
    d_pos := fun j => hs.d_pos j j.isLt
    e_pos := fun i => hs.e_pos i i.isLt
    c_pos := hs.c_pos
    dinv_eq := funext fun j => Residuals.getD_dinv h rfl j
    einv_eq := funext fun i => Residuals.getD_einv h rfl i
    cinv_eq := by rw [h.cinv_eq, ExactField.recip_eq]
    places := hplaces
    P_eq := by
      constructor <;> ext i j <;>
        rw [Matrix.smul_apply, Matrix.mul_diagonal, Matrix.diagonal_mul]
      · exact hs.P_eq i j j.isLt
      · exact hs.symCoeff_P i.isLt j.isLt
    q_eq := funext fun j => hs.q_eq j j.isLt
    A_eq := by
      ext i j
      rw [Matrix.mul_diagonal, Matrix.diagonal_mul]
      exact hs.A_eq i j j.isLt
    l_eq := funext fun i => (h.l_eq i i.isLt).trans (mul_comm _ _)
    u_eq := funext fun i => (h.u_eq i i.isLt).trans (mul_comm _ _) }

/-! ## No rounds -/

/-- **Without a round** all factors are one. -/
theorem equilibrate_zero_ensures (hp : p₀.Sound) : Ensures (equilibrate 0 p₀) fun r =>
    Equilibrated p₀ r.1 r.2 ∧ (∀ x j, r.2.primal p₀.n x j = x.getD j 0) ∧
      (∀ z i, r.2.slack p₀.m z i = z.getD i 0) ∧ ∀ y i, r.2.dual p₀.m y i = y.getD i 0 := by
  obtain ⟨r, hr, heq⟩ := equilibrate_ensures hp 0
  have hone : r.2.d = constant p₀.n 1 ∧ r.2.e = constant p₀.m 1 ∧ r.2.c = 1 := by
    obtain ⟨s, hs, hr⟩ := bind_eq_ok.mp hr
    obtain ⟨l, -, hr⟩ := bind_eq_ok.mp hr
    obtain ⟨u, -, hr⟩ := bind_eq_ok.mp hr
    cases hs
    cases hr
    exact ⟨rfl, rfl, rfl⟩
  obtain ⟨hd, he, hc⟩ := hone
  refine ⟨r, hr, heq, fun x j => ?_, fun z i => ?_, fun y i => ?_⟩
  · rw [primal, hd, getD_constant j.isLt, one_mul]
  · rw [slack, he, getD_constant i.isLt, inv_one, one_mul]
  · rw [dual, he, hc, getD_constant i.isLt, one_mul, div_one]

end Equilibration

namespace Residuals

variable {K : Type} [ExactField K] {n m : ℕ} {S : Matrix (Fin n) (Fin n) K} {q x : Fin n → K}
  {B : Matrix (Fin m) (Fin n) K} {z y : Fin m → K} {r r' : Residuals K}

/-- **The same to a caller:** residuals and objective, and the tolerances they lead to. -/
structure Same (r r' : Residuals K) : Prop where
  primRes_eq : r.primRes = r'.primRes
  dualRes_eq : r.dualRes = r'.dualRes
  objective_eq : r.objective = r'.objective
  tolerances_eq : ∀ epsAbs epsRel, r.tolerances epsAbs epsRel = r'.tolerances epsAbs epsRel

/-- What measures one point, and is compared with its norms, is the same. -/
theorem same_of_measures (h : Measures S q B x z y r) (hc : Compares S q B x z y r)
    (h' : Measures S q B x z y r') (hc' : Compares S q B x z y r') : Same r r' where
  primRes_eq := h.primRes_eq.trans h'.primRes_eq.symm
  dualRes_eq := h.dualRes_eq.trans h'.dualRes_eq.symm
  objective_eq := h.objective_eq.trans h'.objective_eq.symm
  tolerances_eq epsAbs epsRel := by
    rw [tolerances, tolerances, hc.primNorm_eq, hc'.primNorm_eq, hc.dualNorm_eq, hc'.dualNorm_eq]

end Residuals

/-! ## Points -/

namespace Equilibration

variable {K : Type} [ExactField K] {P A : Csc K} {q l u : Array K} {p₀ : Problem K}

/-- **Scaling is undone,** whatever program is accepted and however many rounds are
made: the scaled data are the given ones times positive factors, and what is computed
from them at a scaled point are residuals, objective and tolerances of the given
program at the point in the caller's units, as without scaling. -/
theorem undone_of_ofData (hdata : Problem.ofData P q A l u = .ok (.ok p₀)) (count : ℕ) :
    ∃ p eq p' eq', equilibrate count p₀ = .ok (p, eq) ∧ equilibrate 0 p₀ = .ok (p', eq') ∧
      Conjugated q.size l.size p₀ p eq ∧
      ∀ x z y : Array K, x.size = q.size → z.size = l.size → y.size = l.size →
        Ensures (Residuals.atPoint p eq x z y) fun r =>
          Residuals.Measures (P.toSymMatrix q.size) (vec q.size q) (A.toMatrix l.size q.size)
            (eq.primal q.size x) (eq.slack l.size z) (eq.dual l.size y) r ∧
          Residuals.Compares (P.toSymMatrix q.size) (vec q.size q) (A.toMatrix l.size q.size)
            (eq.primal q.size x) (eq.slack l.size z) (eq.dual l.size y) r ∧
          Ensures (Residuals.atPoint p' eq' (Array.ofFn (eq.primal q.size x))
            (Array.ofFn (eq.slack l.size z)) (Array.ofFn (eq.dual l.size y)))
            (Residuals.Same r) := by
  have hacc := Problem.accepted_of_ofData hdata
  have hp₀ := hacc.sound
  obtain ⟨⟨p, eq⟩, hr, heq⟩ := equilibrate_ensures hp₀ count
  obtain ⟨⟨p', eq'⟩, hr', heq', hprimal, hslack, hdual⟩ := equilibrate_zero_ensures hp₀
  have hn := hacc.n_eq
  have hm := hacc.m_eq
  rw [hn] at hprimal
  rw [hm] at hslack hdual
  refine ⟨p, eq, p', eq', hr, hr', heq.conjugated (samePlaces_of_equilibrate hp₀ hr) hn hm,
    fun x z y hx hz hy => ?_⟩
  have hscaled := Residuals.atPoint_ensures_unscaled heq hn hm hx hz hy
  have hplain := Residuals.atPoint_ensures_unscaled heq' hn hm
    (Array.size_ofFn (f := eq.primal q.size x)) (Array.size_ofFn (f := eq.slack l.size z))
    (Array.size_ofFn (f := eq.dual l.size y))
  -- without scaling a point stands for itself
  have hx' : eq'.primal q.size (Array.ofFn (eq.primal q.size x)) = eq.primal q.size x :=
    funext fun j => (hprimal _ j).trans (by simp)
  have hz' : eq'.slack l.size (Array.ofFn (eq.slack l.size z)) = eq.slack l.size z :=
    funext fun i => (hslack _ i).trans (by simp)
  have hy' : eq'.dual l.size (Array.ofFn (eq.dual l.size y)) = eq.dual l.size y :=
    funext fun i => (hdual _ i).trans (by simp)
  rw [hacc.toSymMatrix_P, hacc.q_eq, hacc.toMatrix_A] at hscaled hplain
  rw [hx', hz', hy'] at hplain
  exact hscaled.mono fun r hr => ⟨hr.1, hr.2, hplain.mono fun r' hr' =>
    Residuals.same_of_measures hr.1 hr.2 hr'.1 hr'.2⟩

open Solver in
/-- A bowl, scaled ten times, at one point. -/
theorem undone_bowl : ∃ (p₀ p : Problem ℚ) (eq : Equilibration ℚ) (p' : Problem ℚ)
    (eq' : Equilibration ℚ), equilibrate 10 p₀ = .ok (p, eq) ∧
    equilibrate 0 p₀ = .ok (p', eq') ∧ Conjugated 2 1 p₀ p eq ∧
    Ensures (Residuals.atPoint p eq #[1, -1] #[2] #[3]) fun r =>
      Ensures (Residuals.atPoint p' eq' (Array.ofFn (eq.primal 2 #[1, -1]))
        (Array.ofFn (eq.slack 1 #[2])) (Array.ofFn (eq.dual 1 #[3]))) (Residuals.Same r) := by
  obtain ⟨p₀, hdata⟩ := Bowl.accepted
  obtain ⟨p, eq, p', eq', hr, hr', hconjugated, hpoint⟩ := undone_of_ofData hdata 10
  exact ⟨p₀, p, eq, p', eq', hr, hr', hconjugated,
    (hpoint #[1, -1] #[2] #[3] rfl rfl rfl).mono fun r h => h.2.2⟩

end Equilibration

end SplitQP
