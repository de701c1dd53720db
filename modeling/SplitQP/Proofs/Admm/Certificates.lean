import SplitQP.Proofs.Admm.Infeasibility
import SplitQP.Proofs.Admm.Faithful
import SplitQP.Proofs.Admm.Verdicts
/-!
# Verdicts of infeasibility

A run that finds the constraints infeasible is right about all points
near the origin (`infeasible_of_run`), and one that finds the objective
unbounded hands out the direction that it tested (`descends_of_run`). The
multipliers handed out for infeasible constraints are the last step as it
is, while the test is of what open bounds leave of it: they are a
certificate only where that is all of it (`certifies_of_run`).
-/

namespace SplitQP

open Checked SplitQP.Dense Finset

/-! ## Feasible points -/

section Given

variable {K : Type} [ExactField K] {P A : Csc K} {q l u : Array K} {settings : Settings K}
  {order : EliminationOrder} {p₀ : Problem K}

namespace Problem

/-- **`x` is feasible** for the bounds given, clipped. -/
def Feasible (A : Csc K) (l u : Array K) {n : ℕ} (x : Fin n → K) : Prop :=
  ∀ i : Fin l.size, clipLower (l.getD i 0) ≤ (A.toMatrix l.size n).mulVec x i ∧
    (A.toMatrix l.size n).mulVec x i ≤ clipUpper (u.getD i 0)

/-- **Between bounds that contradict each other** there is nothing, clipped or not. -/
theorem not_feasible_of_crossed (h : crossed l u = true) {n : ℕ} (x : Fin n → K) :
    ¬ Feasible A l u x := by
  intro hx
  obtain ⟨i, hi, hlt⟩ := Array.any_eq_true.mp h
  have hsize : i < l.size ∧ i < u.size := by simpa using hi
  simp only [Array.getElem_zip, ExactField.lt_iff] at hlt
  obtain ⟨hlo, hhi⟩ := hx ⟨i, hsize.1⟩
  have hle := hlo.trans hhi
  rw [clipLower, clipUpper, getD_of_lt 0 hsize.1, getD_of_lt 0 hsize.2] at hle
  exact ((le_max_left _ _).trans (hle.trans (min_le_left _ _))).not_gt hlt

namespace Accepted

variable (hacc : Accepted P q A l u p₀)

include hacc

/-- The lower bounds held. -/
theorem vec_l : vec l.size p₀.l = fun i : Fin l.size => clipLower (l.getD i 0) :=
  funext fun i => hacc.getD_l i.isLt

/-- The upper bounds held. -/
theorem vec_u : vec l.size p₀.u = fun i : Fin l.size => clipUpper (u.getD i 0) :=
  funext fun i => hacc.getD_u i.isLt

theorem crossedBounds_eq : p₀.crossedBounds = crossed l u := by rw [hacc.eq]

end Accepted

end Problem

/-! ## Runs -/

namespace Solver

variable {s₀ s : Solver K} {clock : Clock K} {stage : Stage K Unit}

section Run

variable (hsetup : setup P q A l u settings order = .ok (.ok s₀)) (hmoves : Moves s₀ s)
  (hrun : s.run clock = .ok stage)

include hsetup hmoves hrun

/-- **A run ends with the program it began with,** the one given, scaled. -/
theorem equilibrated_of_run : ∃ p₀, Problem.Accepted P q A l u p₀ ∧
    Equilibration.Equilibrated p₀ stage.solver.problem stage.solver.equilibration := by
  obtain ⟨-, p₀, hdata, heq₀⟩ := equilibrated_of_setup hsetup
  obtain ⟨hp, he⟩ := problem_of_moves (hmoves.trans (ran_of_run hrun).moves)
  refine ⟨p₀, Problem.accepted_of_ofData hdata, ?_⟩
  rw [hp, he]
  exact heq₀

end Run

/-- **What a primal verdict rests on,** in the caller's units. -/
theorem separates_of_shown (hacc : Problem.Accepted P q A l u p₀)
    (heq : Equilibration.Equilibrated p₀ s.problem s.equilibration) (hshown : Shown s)
    (hstatus : s.info.status.IsPrimalInfeasible) :
    s.iterate.deltaY.size = l.size ∧
      Infeasibility.Separates (A.toMatrix l.size q.size)
        (fun i : Fin l.size => Problem.clipLower (l.getD i 0))
        (fun i : Fin l.size => Problem.clipUpper (u.getD i 0))
        (s.settings.epsPrimInf * s.info.status.leniency)
        (Infeasibility.restrict s.problem (s.equilibration.dual l.size s.iterate.deltaY)) := by
  have hsep := Infeasibility.separates_of_isPrimal heq hacc.n_eq hacc.m_eq
    (hshown.primal hstatus)
  rwa [hacc.toMatrix_A, hacc.vec_l, hacc.vec_u] at hsep

end Solver

end Given

/-! ## A gap between bounds -/

namespace Gap

/-- `x²` is minimised. -/
def P : Csc ℚ := ⟨1, 1, #[0, 1], #[0], #[2]⟩

def q : Array ℚ := #[0]

/-- `x`, three times. -/
def A : Csc ℚ := ⟨3, 1, #[0, 3], #[0, 1, 2], #[1, 1, 1]⟩

/-- `x` is to be at least two, and at least a half. -/
def l : Array ℚ := #[2, -10 ^ 30, 1 / 2]

/-- And it is not to be positive. -/
def u : Array ℚ := #[10 ^ 30, 0, 10 ^ 30]

def settings : Settings ℚ := { Settings.default with
  rho := 2
  sigma := 2
  alpha := 1
  scaling := 0
  adaptiveRho := false
  checkTermination := 1
  epsPrimInf := 1 / 8
  maxIter := 12 }

end Gap

/-! ## A slope without end -/

namespace Slope

/-- `-x` is minimised. -/
def P : Csc ℚ := ⟨1, 1, #[0, 0], #[], #[]⟩

def q : Array ℚ := #[-1]

def A : Csc ℚ := ⟨1, 1, #[0, 1], #[0], #[1]⟩

/-- `x` is not to be negative. -/
def l : Array ℚ := #[0]

def u : Array ℚ := #[10 ^ 30]

def settings : Settings ℚ := { Settings.default with
  rho := 1
  sigma := 1
  alpha := 1
  scaling := 0
  adaptiveRho := false
  checkTermination := 1 }

end Slope

namespace Solver

/-- The second iteration finds the gap. What is handed out pulls at the upper bound
of the last row, and there is none. -/
theorem gap_found : ∃ s stage,
    setup Gap.P Gap.q Gap.A Gap.l Gap.u Gap.settings .natural = .ok (.ok s) ∧
      s.settings.validate = .ok () ∧ s.run .still = .ok stage ∧
      stage.solver.solution.status = .primalInfeasible ∧
      stage.solver.solution.primInfCert = some #[-2, 2, 1] ∧
      Infeasibility.OpenAbove stage.solver.problem 2 := by
  have hfirst : firstRun Gap.P Gap.q Gap.A Gap.l Gap.u Gap.settings .natural .still
      (fun s stage => decide (s.settings.validate = .ok () ∧
        stage.solver.solution.status = .primalInfeasible ∧
        stage.solver.solution.primInfCert = some #[-2, 2, 1] ∧
        Infeasibility.OpenAbove stage.solver.problem 2)) = true := by
    decide +kernel
  obtain ⟨s, stage, hsetup, hrun, htest⟩ := exists_of_firstRun hfirst
  obtain ⟨hset, hstatus, hcert, hopen⟩ := of_decide_eq_true htest
  exact ⟨s, stage, hsetup, hset, hrun, hstatus, hcert, hopen⟩

/-- The first iteration finds the slope. -/
theorem slope_found : ∃ s stage,
    setup Slope.P Slope.q Slope.A Slope.l Slope.u Slope.settings .natural = .ok (.ok s) ∧
      s.settings.validate = .ok () ∧ s.run .still = .ok stage ∧
      stage.solver.solution.status = .dualInfeasible := by
  have hfirst : firstRun Slope.P Slope.q Slope.A Slope.l Slope.u Slope.settings .natural .still
      (fun s stage => decide (s.settings.validate = .ok () ∧
        stage.solver.solution.status = .dualInfeasible)) = true := by
    decide +kernel
  obtain ⟨s, stage, hsetup, hrun, htest⟩ := exists_of_firstRun hfirst
  obtain ⟨hset, hstatus⟩ := of_decide_eq_true htest
  exact ⟨s, stage, hsetup, hset, hrun, hstatus⟩

end Solver

/-! ## What verdicts say -/

namespace Solver

variable {K : Type} [ExactField K] {P A : Csc K} {q l u : Array K} {settings : Settings K}
  {order : EliminationOrder} {s₀ s : Solver K} {clock : Clock K} {stage : Stage K Unit}

/-- **A primal verdict is sound:** no point near the origin is feasible. -/
theorem infeasible_of_run (hsetup : setup P q A l u settings order = .ok (.ok s₀))
    (hmoves : Moves s₀ s) (hrun : s.run clock = .ok stage)
    (hstatus : stage.solver.solution.status.IsPrimalInfeasible) (x : Fin q.size → K)
    (hx : ∑ j, |x j| ≤ 1) : ¬ Problem.Feasible A l u x := by
  obtain ⟨p₀, hacc, heq⟩ := equilibrated_of_run hsetup hmoves hrun
  -- a test passed, or there was none to make
  obtain ⟨hreported, hshown | ⟨hcrossed, -⟩⟩ := shown_of_run hrun
  · rw [hreported] at hstatus
    exact (separates_of_shown hacc heq hshown hstatus).2.not_within hx
  · rw [heq.scales.crossedBounds_eq, hacc.crossedBounds_eq] at hcrossed
    exact Problem.not_feasible_of_crossed hcrossed x

theorem infeasible_of_run_gap : ∃ s stage,
    setup Gap.P Gap.q Gap.A Gap.l Gap.u Gap.settings .natural = .ok (.ok s) ∧
      s.run .still = .ok stage ∧ stage.solver.solution.status = .primalInfeasible ∧
      ∀ x : Fin 1 → ℚ, ∑ j, |x j| ≤ 1 → ¬ Problem.Feasible Gap.A Gap.l Gap.u x := by
  obtain ⟨s, stage, hsetup, -, hrun, hstatus, -, -⟩ := gap_found
  exact ⟨s, stage, hsetup, hrun, hstatus, infeasible_of_run hsetup .refl hrun (.inl hstatus)⟩

/-- **A dual verdict is sound,** and what is handed out with it shows it: a
direction of descent, so that no small point is stationary for small
multipliers. -/
theorem descends_of_run (hsetup : setup P q A l u settings order = .ok (.ok s₀))
    (hmoves : Moves s₀ s) (hrun : s.run clock = .ok stage)
    (hstatus : stage.solver.solution.status.IsDualInfeasible) :
    ∃ v, stage.solver.solution.dualInfCert = some v ∧ v.size = q.size ∧
      Infeasibility.Descends (P.toSymMatrix q.size) (vec q.size q) (A.toMatrix l.size q.size)
        (fun i => Infeasibility.OpenAbove stage.solver.problem i)
        (fun i => Infeasibility.OpenBelow stage.solver.problem i)
        (s.settings.epsDualInf * stage.solver.solution.status.leniency) (vec q.size v) ∧
      ∀ (x : Fin q.size → K) (y : Fin l.size → K),
        (P.toSymMatrix q.size).mulVec x + vec q.size q +
          (A.toMatrix l.size q.size).transpose.mulVec y = 0 →
        (∀ i : Fin l.size, Infeasibility.OpenAbove stage.solver.problem i → y i ≤ 0) →
        (∀ i : Fin l.size, Infeasibility.OpenBelow stage.solver.problem i → 0 ≤ y i) →
        ¬ ∑ j, |x j| + ∑ i, |y i| ≤ 1 := by
  obtain ⟨p₀, hacc, heq⟩ := equilibrated_of_run hsetup hmoves hrun
  have hran := ran_of_run hrun
  obtain ⟨hreported, hshown | ⟨-, hprimal⟩⟩ := shown_of_run hrun
  · rw [hreported] at hstatus ⊢
    obtain ⟨hsize, hdesc⟩ := Infeasibility.descends_of_isDual heq hacc.n_eq hacc.m_eq
      (hshown.dual hstatus)
    rw [hacc.toSymMatrix_P, hacc.toMatrix_A, hacc.q_eq, hran.settings_eq] at hdesc
    obtain ⟨sol, hsol, hkept⟩ := hran.solution
    obtain ⟨v, hcert, hv, hvec⟩ := Solution.dualInfCert_of_ofIterate heq
      (heq.scales.n_eq.trans hacc.n_eq) hsize hstatus
      (by rw [← heq.scales.n_eq.trans hacc.n_eq]; exact hsol)
    rw [← hvec] at hdesc
    refine ⟨v, ?_, hv, hdesc, fun x y hstat habove hbelow => ?_⟩
    · rw [hkept]
      split <;> exact hcert
    · exact (hdesc.lt_of_stationary (Csc.toSymMatrix_transpose P _) hstat habove hbelow).not_ge
  -- bounds that contradict each other lead to the other verdict only
  · rw [hreported, hprimal] at hstatus
    exact absurd hstatus (by decide)

theorem descends_of_run_slope : ∃ s stage v,
    setup Slope.P Slope.q Slope.A Slope.l Slope.u Slope.settings .natural = .ok (.ok s) ∧
      s.run .still = .ok stage ∧ stage.solver.solution.status = .dualInfeasible ∧
      stage.solver.solution.dualInfCert = some v ∧
      Infeasibility.Descends (Slope.P.toSymMatrix 1) (vec 1 Slope.q) (Slope.A.toMatrix 1 1)
        (fun i => Infeasibility.OpenAbove stage.solver.problem i)
        (fun i => Infeasibility.OpenBelow stage.solver.problem i)
        (s.settings.epsDualInf * stage.solver.solution.status.leniency) (vec 1 v) := by
  obtain ⟨s, stage, hsetup, -, hrun, hstatus⟩ := slope_found
  obtain ⟨v, hcert, -, hdesc, -⟩ := descends_of_run hsetup .refl hrun (.inl hstatus)
  exact ⟨s, stage, v, hsetup, hrun, hstatus, hcert, hdesc⟩

/-- **`v` certifies that the constraints are infeasible:** it separates, and pulls
at no open bound. -/
structure Certifies (p : Problem K) (A : Csc K) (l u : Array K) (n : ℕ) (eps : K)
    (v : Fin l.size → K) : Prop where
  respects : Infeasibility.Respects p v
  separates : Infeasibility.Separates (A.toMatrix l.size n)
    (fun i : Fin l.size => Problem.clipLower (l.getD i 0))
    (fun i : Fin l.size => Problem.clipUpper (u.getD i 0)) eps v

/-- **What is handed out with a primal verdict** certifies it without what open
bounds forbid, and as it is exactly where it pulls at none. -/
theorem certifies_of_run (hsetup : setup P q A l u settings order = .ok (.ok s₀))
    (hmoves : Moves s₀ s) (hrun : s.run clock = .ok stage)
    (hbounds : Problem.crossed l u = false)
    (hstatus : stage.solver.solution.status.IsPrimalInfeasible) :
    ∃ v, stage.solver.solution.primInfCert = some v ∧ v.size = l.size ∧
      Certifies stage.solver.problem A l u q.size
        (s.settings.epsPrimInf * stage.solver.solution.status.leniency)
        (Infeasibility.restrict stage.solver.problem (vec l.size v)) ∧
      (Certifies stage.solver.problem A l u q.size
          (s.settings.epsPrimInf * stage.solver.solution.status.leniency) (vec l.size v) ↔
        Infeasibility.Respects stage.solver.problem (vec l.size v)) := by
  obtain ⟨p₀, hacc, heq⟩ := equilibrated_of_run hsetup hmoves hrun
  have hran := ran_of_run hrun
  have hopen : stage.solver.problem.crossedBounds = false := by
    rw [heq.scales.crossedBounds_eq, hacc.crossedBounds_eq, hbounds]
  obtain ⟨hreported, hshown | ⟨hcrossed, -⟩⟩ := shown_of_run hrun
  · rw [hreported] at hstatus ⊢
    obtain ⟨hsize, hsep⟩ := separates_of_shown hacc heq hshown hstatus
    rw [hran.settings_eq] at hsep
    obtain ⟨sol, hsol, hkept⟩ := hran.solution
    obtain ⟨v, hcert, hv, hvec⟩ := Solution.primInfCert_of_ofIterate heq
      (heq.scales.m_eq.trans hacc.m_eq) hsize hstatus
      (by rw [← heq.scales.m_eq.trans hacc.m_eq]; exact hsol)
    rw [← hvec] at hsep
    refine ⟨v, ?_, hv, ⟨Infeasibility.respects_restrict _ _, hsep⟩,
      fun hcertifies => hcertifies.respects, fun hrespects => ⟨hrespects, ?_⟩⟩
    · rw [hkept, hopen]
      exact hcert
    · rwa [Infeasibility.restrict_eq_self_iff.mpr hrespects] at hsep
  · rw [hopen] at hcrossed
    cases hcrossed

theorem certifies_of_run_gap : ∃ s stage v,
    setup Gap.P Gap.q Gap.A Gap.l Gap.u Gap.settings .natural = .ok (.ok s) ∧
      s.run .still = .ok stage ∧ Problem.crossed Gap.l Gap.u = false ∧
      stage.solver.solution.status = .primalInfeasible ∧
      stage.solver.solution.primInfCert = some v ∧
      Certifies stage.solver.problem Gap.A Gap.l Gap.u 1
        (s.settings.epsPrimInf * stage.solver.solution.status.leniency)
        (Infeasibility.restrict stage.solver.problem (vec 3 v)) := by
  obtain ⟨s, stage, hsetup, -, hrun, hstatus, -, -⟩ := gap_found
  have hbounds : Problem.crossed Gap.l Gap.u = false := by decide +kernel
  obtain ⟨v, hcert, -, hcertifies, -⟩ :=
    certifies_of_run hsetup .refl hrun hbounds (.inl hstatus)
  exact ⟨s, stage, v, hsetup, hrun, hbounds, hstatus, hcert, hcertifies⟩

/-- **What is handed out need not certify:** it pulls at an upper bound that there is
not. -/
theorem not_certifies_gap : ∃ s stage v,
    setup Gap.P Gap.q Gap.A Gap.l Gap.u Gap.settings .natural = .ok (.ok s) ∧
      s.settings.validate = .ok () ∧ s.run .still = .ok stage ∧
      Problem.crossed Gap.l Gap.u = false ∧
      stage.solver.solution.status = .primalInfeasible ∧
      stage.solver.solution.primInfCert = some v ∧
      ∀ eps, ¬ Certifies stage.solver.problem Gap.A Gap.l Gap.u 1 eps (vec 3 v) := by
  obtain ⟨s, stage, hsetup, hset, hrun, hstatus, hcert, hopen⟩ := gap_found
  have hbounds : Problem.crossed Gap.l Gap.u = false := by decide +kernel
  refine ⟨s, stage, _, hsetup, hset, hrun, hbounds, hstatus, hcert, fun eps h => ?_⟩
  have hpull : vec 3 (#[-2, 2, 1] : Array ℚ) 2 ≤ 0 := h.respects.nonpos ⟨2, by decide⟩ hopen
  exact absurd hpull (by decide +kernel)

end Solver

end SplitQP
