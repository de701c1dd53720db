import SplitQP.Proofs.Sparse.NotANumber
import SplitQP.Proofs.Admm.Faithful
import SplitQP.Proofs.Admm.Runs
import SplitQP.Proofs.Admm.Verdicts
/-!
# Verdicts and what is not a number

A value of the iterate that is not a number spreads to the residuals that
read it, and then no check finds the program solved. The tests of
infeasibility leave early where something is small, and a length that is
not a number is not small: it is a later exit that stops them, if there is
one. The primal test has one, but `δy` reaches it only in rows that are
closed on both sides, for elsewhere zero takes the place of what is not a
number. The dual test has one in every row that is not open on both sides
(`undeceived_of_setup`).
-/

namespace SplitQP

open Checked SplitQP.Dense Scalar.SpreadsNaN

variable {α : Type} [Scalar α] [Scalar.SpreadsNaN α] {p : Problem α} {eq : Equilibration α}

/-! ## Residuals -/

namespace Residuals

variable {x z y : Array α}

/-- **The primal residual reads** a value that is not a number: of `z`, or of `x` in a
column where `A` stores something. -/
def PrimalReads (p : Problem α) (x z : Array α) : Prop :=
  (∃ e ∈ p.A.entryList, Scalar.isNaN (x.getD e.col 0)) ∨ ∃ i, Scalar.isNaN (z.getD i 0)

/-- **The dual residual reads** one: of `x` in a row or column where `P` stores something,
or of `y` in a row where `A` does. -/
def DualReads (p : Problem α) (x y : Array α) : Prop :=
  (∃ e ∈ p.P.entryList, Scalar.isNaN (x.getD e.col 0) ∨ Scalar.isNaN (x.getD e.row 0)) ∨
    ∃ e ∈ p.A.entryList, Scalar.isNaN (y.getD e.row 0)

/-- **The residuals show what they read.** Without constraints there is no primal one. -/
structure Shows (p : Problem α) (x z y : Array α) (r : Residuals α) : Prop where
  primRes : PrimalReads p x z → Scalar.isNaN r.primRes
  dualRes : DualReads p x y → Scalar.isNaN r.dualRes
  primRes_of_none : p.m = 0 → r.primRes = 0

theorem atPoint_ensures_shows (hp : p.Sound) (he : eq.Fits p.n p.m) (hx : x.size = p.n)
    (hz : z.size = p.m) (hy : y.size = p.m) : Ensures (atPoint p eq x z y) (Shows p x z y) := by
  have hsq : p.P.nrows = p.P.ncols := hp.nrows_P.trans hp.ncols_P.symm
  refine (atPoint_ensures_ofProducts hp he hx hz
    ((Csc.mulVec_ensures_isNaN hp.wellFormed_A 1 0 (hx.trans hp.ncols_A.symm)
      (size_constant.trans hp.nrows_A.symm)).mono fun _ h => ⟨h.1.trans hp.nrows_A, h.2⟩)
    ((Csc.mulSymVec_ensures_isNaN hp.wellFormed_P hsq 1 0 (hx.trans hp.ncols_P.symm)
      (size_constant.trans hp.ncols_P.symm)).mono fun _ h => ⟨h.1.trans hp.ncols_P, h.2⟩)
    ((Csc.mulTransposeVec_ensures_isNaN hp.wellFormed_A 1 0 (hy.trans hp.nrows_A.symm)
      (size_constant.trans hp.ncols_A.symm)).mono fun _ h =>
        ⟨h.1.trans hp.ncols_A, h.2⟩)).mono ?_
  rintro _ ⟨ax, px, aty, ⟨hsizeax, hax⟩, ⟨hsizepx, hpx⟩, ⟨hsizeaty, haty⟩, rfl⟩
  have hprim := size_primal hsizeax hz
  have hgrad := size_gradient hp.size_q hsizepx hsizeaty
  -- an entry of either residual is made of one entry of each term
  have hprimEntry : ∀ {i}, Scalar.isNaN (ax.getD i 0) ∨ Scalar.isNaN (z.getD i 0) →
      Scalar.isNaN ((primal z ax).getD i 0) :=
    isNaN_zipWith (fun _ _ h => isNaN_add (h.imp (isNaN_mul <| .inr ·) (isNaN_mul <| .inr ·)))
      hsizeax hz
  have hdualEntry : ∀ {j}, Scalar.isNaN (px.getD j 0) ∨ Scalar.isNaN (aty.getD j 0) →
      Scalar.isNaN ((gradient p.q px aty).getD j 0) := fun h =>
    isNaN_zipWith (fun _ _ => isNaN_add) (size_zipWith hsizepx hp.size_q) hsizeaty
      (h.imp_left fun h => isNaN_zipWith (fun _ _ => isNaN_add) hsizepx hp.size_q (.inl h))
  refine ⟨fun h => ?_, fun h => ?_, fun hnone => ?_⟩
  · rcases h with ⟨e, hmem, h⟩ | ⟨i, h⟩
    · exact isNaN_largest_mul hprim he.size_einv (hprimEntry (.inl (hax e hmem h)))
    · exact isNaN_largest_mul hprim he.size_einv (hprimEntry (.inr h))
  · refine isNaN_mul (.inr ?_)
    rcases h with ⟨e, hmem, h | h⟩ | ⟨e, hmem, h⟩
    · exact isNaN_largest_mul hgrad he.size_dinv (hdualEntry (.inl ((hpx e hmem).1 h)))
    · exact isNaN_largest_mul hgrad he.size_dinv (hdualEntry (.inl ((hpx e hmem).2 h)))
    · exact isNaN_largest_mul hgrad he.size_dinv (hdualEntry (.inr (haty e hmem h)))
  · have hempty := size_zipWith (f := fun u v : α => u * v) hprim he.size_einv
    rw [hnone, Array.size_eq_zero_iff] at hempty
    dsimp only [ofProducts]
    rw [hempty]
    rfl

end Residuals

/-! ## The tests -/

namespace Infeasibility

/-- Row `i` is open on both sides. -/
def IsLoose (p : Problem α) (i : ℕ) : Prop :=
  Scalar.lt (p.l.getD i 0) (-StepSizes.unbounded) ∧ Scalar.lt StepSizes.unbounded (p.u.getD i 0)

/-- Row `i` is closed on both sides. -/
def IsClosed (p : Problem α) (i : ℕ) : Prop :=
  ¬Scalar.lt (p.l.getD i 0) (-StepSizes.unbounded) ∧ ¬Scalar.lt StepSizes.unbounded (p.u.getD i 0)

instance (p : Problem α) (i : ℕ) : Decidable (IsLoose p i) := inferInstanceAs (Decidable (_ ∧ _))

instance (p : Problem α) (i : ℕ) : Decidable (IsClosed p i) := inferInstanceAs (Decidable (_ ∧ _))

/-- Zero in place of what is not a number. -/
def numbers (x : Array α) : Array α := x.map fun v => if Scalar.isNaN v then 0 else v

variable {dx dy : Array α} {i j : ℕ}

/-- **A closed row** lets through what is not a number. -/
theorem isNaN_projected (hp : p.Sound) (hdy : dy.size = p.m) (hclosed : IsClosed p i)
    (h : Scalar.isNaN (dy.getD i 0)) : Scalar.isNaN ((projected p dy).getD i 0) := by
  rw [getD_projected hp hdy (hdy ▸ lt_size_of_isNaN h), project,
    Bool.eq_false_iff.mpr hclosed.1, Bool.eq_false_iff.mpr hclosed.2]
  exact h

/-- **The others** put zero in its place. -/
theorem project_of_isNaN {l u v : α}
    (hopen : ¬(¬Scalar.lt l (-StepSizes.unbounded) ∧ ¬Scalar.lt StepSizes.unbounded u))
    (h : Scalar.isNaN v) : project l u v = project l u 0 := by
  unfold project
  cases hl : Scalar.lt l (-StepSizes.unbounded) <;> cases hu : Scalar.lt StepSizes.unbounded u
  · simp [hl, hu] at hopen
  · exact (min_of_isNaN 0 h).trans (min_idem 0).symm
  · exact (max_of_isNaN 0 h).trans (max_idem 0).symm
  · rfl

theorem projected_numbers (hp : p.Sound) (hdy : dy.size = p.m)
    (hopen : ∀ i, Scalar.isNaN (dy.getD i 0) → ¬IsClosed p i) :
    projected p dy = projected p (numbers dy) := by
  have hsize : (numbers dy).size = p.m := by rw [numbers, Array.size_map, hdy]
  refine ext_getD 0 (size_projected hp hdy) (size_projected hp hsize) fun i hi => ?_
  rw [getD_projected hp hdy hi, getD_projected hp hsize hi, numbers, getD_map 0 0 (hdy ▸ hi)]
  split
  · exact project_of_isNaN (hopen i ‹_›) ‹_›
  · rfl

/-- **The primal test fails** where a closed row has no number. -/
theorem isPrimal_of_isClosed (hp : p.Sound) (he : eq.Fits p.n p.m) (hdy : dy.size = p.m)
    (hclosed : IsClosed p i) (h : Scalar.isNaN (dy.getD i 0)) (eps : α) :
    isPrimal p eq dy eps = .ok false := by
  have hproj := size_projected hp hdy
  have hnorm := isNaN_largest_mul hproj he.size_e (isNaN_projected hp hdy hclosed h)
  rw [isPrimal, copyTo_eq_ok (size_constant.trans hdy.symm), ok_bind]
  dsimp only
  rw [normInfScaled_eq_ok (hproj.trans he.size_e.symm), ok_bind, le_of_isNaN (.inl hnorm),
    le_of_isNaN (.inl (isNaN_mul (.inr hnorm))), if_neg Bool.false_ne_true,
    if_neg Bool.false_ne_true]
  -- neither exit is taken, and nothing is below what is not a number
  obtain ⟨aty, hmul, haty⟩ := Csc.mulTransposeVec_ensures_size hp.wellFormed_A (1 : α) 0
    (hproj.trans hp.nrows_A.symm) (size_constant.trans hp.ncols_A.symm)
  rw [hmul, ok_bind, normInfScaled_eq_ok (haty.trans (hp.ncols_A.trans he.size_dinv.symm)), ok_bind,
    lt_of_isNaN (.inr (isNaN_mul (.inr hnorm)))]
  rfl

/-- **It goes by zero** where no closed row has none. -/
theorem isPrimal_numbers (hp : p.Sound) (hdy : dy.size = p.m)
    (hopen : ∀ i, Scalar.isNaN (dy.getD i 0) → ¬IsClosed p i) (eps : α) :
    isPrimal p eq dy eps = isPrimal p eq (numbers dy) eps := by
  have hsize : (numbers dy).size = p.m := by rw [numbers, Array.size_map, hdy]
  rw [isPrimal, isPrimal, copyTo_eq_ok (size_constant.trans hdy.symm),
    copyTo_eq_ok (size_constant.trans hsize.symm), ok_bind, ok_bind,
    projected_numbers hp hdy hopen]

/-- A movement stays within a tolerance that is not a number in loose rows only. -/
theorem staysWithin_of_isNaN {tolerance l u adx : α} (h : Scalar.isNaN tolerance) :
    staysWithin tolerance l u adx =
      (Scalar.lt StepSizes.unbounded u && Scalar.lt l (-StepSizes.unbounded)) := by
  rw [staysWithin, le_of_isNaN (.inr h), le_of_isNaN (.inl (isNaN_neg h)), Bool.or_false,
    Bool.or_false]

theorem all_staysWithin_of_isNaN (hp : p.Sound) {tolerance : α} (h : Scalar.isNaN tolerance)
    {ax : Array α} (hax : ax.size = p.m) :
    (((p.l.zip p.u).zip ax).all fun ((l, u), adx) => staysWithin tolerance l u adx) =
      decide (∀ i < p.m, IsLoose p i) := by
  have hsize : ((p.l.zip p.u).zip ax).size = p.m := by simp [hp.size_l, hp.size_u, hax]
  have hrow : ∀ i (hi : i < ((p.l.zip p.u).zip ax).size),
      staysWithin tolerance ((p.l.zip p.u).zip ax)[i].1.1 ((p.l.zip p.u).zip ax)[i].1.2
        ((p.l.zip p.u).zip ax)[i].2 = true ↔ IsLoose p i := by
    intro i hi
    rw [hsize] at hi
    rw [IsLoose, getD_of_lt 0 (hp.size_l ▸ hi), getD_of_lt 0 (hp.size_u ▸ hi), Array.getElem_zip,
      Array.getElem_zip, staysWithin_of_isNaN h, Bool.and_eq_true, and_comm]
  rw [Bool.eq_iff_iff, decide_eq_true_iff, Array.all_eq_true]
  exact ⟨fun hall i hi => (hrow i (hsize ▸ hi)).mp (hall i (hsize ▸ hi)),
    fun hall i hi => (hrow i hi).mpr (hall i (hsize ▸ hi))⟩

/-- **The dual test of what is not a number** passes exactly where all rows are loose. -/
theorem isDual_of_isNaN (hp : p.Sound) (he : eq.Fits p.n p.m) (hdx : dx.size = p.n)
    (h : Scalar.isNaN (dx.getD j 0)) (eps : α) :
    isDual p eq dx eps = .ok (decide (∀ i < p.m, IsLoose p i)) := by
  have hsq : p.P.nrows = p.P.ncols := hp.nrows_P.trans hp.ncols_P.symm
  have hnorm := isNaN_largest_mul hdx he.size_d h
  obtain ⟨px, hmulP, hpx⟩ := Csc.mulSymVec_ensures_size hp.wellFormed_P hsq (1 : α) 0
    (hdx.trans hp.ncols_P.symm) (size_constant.trans hp.ncols_P.symm)
  obtain ⟨ax, hmulA, hax⟩ := Csc.mulVec_ensures_size hp.wellFormed_A (1 : α) 0
    (hdx.trans hp.ncols_A.symm) (size_constant.trans hp.nrows_A.symm)
  rw [hp.nrows_A] at hax
  -- none of the three exits is taken
  rw [isDual, normInfScaled_eq_ok (hdx.trans he.size_d.symm), ok_bind, le_of_isNaN (.inl hnorm),
    if_neg Bool.false_ne_true, dot_eq_ok (hp.size_q.trans hdx.symm), ok_bind,
    le_of_isNaN (.inl (isNaN_mul (.inr hnorm))), if_neg Bool.false_ne_true, hmulP, ok_bind,
    normInfScaled_eq_ok (hpx.trans (hp.ncols_P.trans he.size_dinv.symm)), ok_bind,
    le_of_isNaN (.inl (isNaN_mul (.inr hnorm))), if_neg Bool.false_ne_true, hmulA, ok_bind,
    hadamard_eq_ok (hax.trans he.size_einv.symm), ok_bind, pure_eq_ok,
    all_staysWithin_of_isNaN hp (isNaN_mul (.inr hnorm)) (size_zipWith hax he.size_einv)]

/-- **What the tests make of an iterate** with steps that are not numbers. -/
structure Meets (p : Problem α) (eq : Equilibration α) (v : Iterate α) : Prop where
  primal_closed : ∀ i, IsClosed p i → Scalar.isNaN (v.deltaY.getD i 0) →
    ∀ eps, isPrimal p eq v.deltaY eps = .ok false
  primal_open : (∀ i, Scalar.isNaN (v.deltaY.getD i 0) → ¬IsClosed p i) →
    ∀ eps, isPrimal p eq v.deltaY eps = isPrimal p eq (numbers v.deltaY) eps
  dual : ∀ j, Scalar.isNaN (v.deltaX.getD j 0) →
    ∀ eps, isDual p eq v.deltaX eps = .ok (decide (∀ i < p.m, IsLoose p i))

theorem meets {v : Iterate α} (hp : p.Sound) (he : eq.Fits p.n p.m) (hv : v.Sized p.n p.m) :
    Meets p eq v where
  primal_closed _ hclosed h := isPrimal_of_isClosed hp he hv.size_deltaY hclosed h
  primal_open hopen := isPrimal_numbers hp hv.size_deltaY hopen
  dual _ h := isDual_of_isNaN hp he hv.size_deltaX h

end Infeasibility

/-! ## Verdicts -/

namespace Solver

open Infeasibility

/-- **A verdict on `v` does not come from what is not a number:** in the residuals, in a row
of `δy` that is closed on both sides, or anywhere in `δx` if not all rows are loose. -/
structure Undeceived (p : Problem α) (v : Iterate α) (r : Residuals α) (status : SolverStatus) :
    Prop where
  solved : Scalar.isNaN r.primRes ∨ Scalar.isNaN r.dualRes → ¬status.IsSolved
  primal : (∃ i, IsClosed p i ∧ Scalar.isNaN (v.deltaY.getD i 0)) → ¬status.IsPrimalInfeasible
  dual : (∃ j, Scalar.isNaN (v.deltaX.getD j 0)) → (∃ i < p.m, ¬IsLoose p i) →
    ¬status.IsDualInfeasible

variable {shift : α} {s s' : Solver α} {approximate : Bool}

/-- **No check is deceived** after a look at the residuals. -/
theorem undeceived_of_checkTermination (hfits : Fits shift s)
    (hshows : Residuals.Shows s.problem s.iterate.x s.iterate.z s.iterate.y s.residuals)
    (h : s.checkTermination approximate = .ok (some s')) :
    Undeceived s.problem s.iterate s.residuals s'.info.status := by
  have hmeets := meets hfits.sound hfits.scaling hfits.sized
  have hshown := shown_of_checkTermination h
  obtain ⟨info, rfl⟩ := (hfits.checkTermination_ensures approximate).of_eq_ok h s' rfl
  refine ⟨fun hnan hsolved => ?_, fun ⟨i, hclosed, hnan⟩ hstatus => ?_,
    fun ⟨j, hnan⟩ ⟨i, hi, hloose⟩ hstatus => ?_⟩
  · obtain ⟨hprim, hdual⟩ := passes_of_isSolved h hsolved
    rcases hnan with hnan | hnan
    · rcases hprim with hnone | hprim
      · rw [hshows.primRes_of_none hnone, isNaN_zero] at hnan
        cases hnan
      · rw [lt_of_isNaN (.inl hnan)] at hprim
        cases hprim
    · rw [DualPasses, lt_of_isNaN (.inl hnan)] at hdual
      cases hdual
  · have htest := hshown.primal hstatus
    rw [hmeets.primal_closed i hclosed hnan] at htest
    cases htest
  · have htest := hshown.dual hstatus
    rw [hmeets.dual j hnan, Except.ok.injEq, decide_eq_true_iff] at htest
    exact hloose (htest i hi)

section Setup

variable {P A : Csc α} {q l u : Array α} {settings : Settings α} {order : EliminationOrder}
  {s₀ : Solver α} {v : Iterate α}

/-- **What is not a number and the verdicts.** Whatever has become of a solver, and whatever
its iterate is: a residual is not a number if one of the values that it reads is not, and a
check that follows, exact or approximate, does not find the program solved then. Nor does
it find it infeasible by such a `δy` if the row is closed on both sides, or by such a `δx` if
not all rows are loose. In the other rows the primal test takes `δy` for zero, and the dual
test passes if all rows are loose. -/
theorem undeceived_of_setup (hsetup : setup P q A l u settings order = .ok (.ok s₀))
    (hmoves : Moves s₀ s) (hv : v.Sized s.problem.n s.problem.m) :
    Meets s.problem s.equilibration v ∧
      Ensures { s with iterate := v }.updateResiduals fun s₁ =>
        Residuals.Shows s.problem v.x v.z v.y s₁.residuals ∧
          ∀ approximate, Ensures (s₁.checkTermination approximate) fun r => ∀ s₂, r = some s₂ →
            Undeceived s.problem v s₁.residuals s₂.info.status := by
  have hfits : Fits settings.sigma s :=
    invariant_fits.of_moves (starts_of_setup hsetup).fits hmoves
  refine ⟨meets hfits.sound hfits.scaling hv, ?_⟩
  rw [updateResiduals]
  refine (Residuals.atPoint_ensures_shows hfits.sound hfits.scaling hv.size_x hv.size_z
    hv.size_y).bind fun r hr => .ok ⟨hr, fun approximate => ?_⟩
  have hfits' : Fits settings.sigma
      { s with iterate := v, residuals := r, info := s.info.update r } := { hfits with sized := hv }
  obtain ⟨found, hfound, -⟩ := hfits'.checkTermination_ensures approximate
  refine ⟨found, hfound, fun s₂ hs₂ => ?_⟩
  rw [hs₂] at hfound
  exact undeceived_of_checkTermination hfits' hr hfound

end Setup

/-! ## A slope that is too steep -/

namespace Steep

/-- `½·x²`. -/
def P : Csc Float := ⟨1, 1, #[0, 1], #[0], #[1]⟩

/-- The minimum of `½·x² + q·x` is a number, and 1.6 times as far there is none. -/
def q : Array Float := #[1.5e308]

def A : Csc Float := ⟨1, 1, #[0, 1], #[0], #[1]⟩

def settings : Settings Float := { Settings.default with
  scaling := 0
  maxIter := 10
  adaptiveRho := false
  checkTermination := 1 }

/-- No time passes. -/
def clock : Clock Float := ⟨0, fun _ => 0, 0⟩

/-- Nothing in it is a number. -/
def nowhere : Iterate Float := ⟨#[0 / 0], #[0 / 0], #[0 / 0], #[0 / 0], #[0 / 0]⟩

end Steep

theorem undeceived_of_setup_steep : ∃ s₀,
    setup Steep.P Steep.q Steep.A #[-1] #[1] Steep.settings .natural = .ok (.ok s₀) ∧
      Ensures { s₀ with iterate := Steep.nowhere }.updateResiduals fun s₁ =>
        Scalar.isNaN s₁.residuals.primRes ∧ Scalar.isNaN s₁.residuals.dualRes ∧
          ∀ approximate, Ensures (s₁.checkTermination approximate) fun r => ∀ s₂, r = some s₂ →
            ¬s₂.info.status.IsSolved ∧ ¬s₂.info.status.IsPrimalInfeasible ∧
              ¬s₂.info.status.IsDualInfeasible := by
  have hfirst : firstRun Steep.P Steep.q Steep.A #[-1] #[1] Steep.settings .natural Steep.clock
      (fun s₀ _ => decide (s₀.problem.n = 1 ∧ s₀.problem.m = 1 ∧ IsClosed s₀.problem 0 ∧
        ¬IsLoose s₀.problem 0 ∧ ∃ e ∈ s₀.problem.A.entryList, e.row = 0)) = true := by
    decide +kernel
  obtain ⟨s₀, _, hsetup, -, htest⟩ := exists_of_firstRun hfirst
  obtain ⟨hn, hm, hclosed, hloose, e, he, hrow⟩ := of_decide_eq_true htest
  have hsized : Steep.nowhere.Sized s₀.problem.n s₀.problem.m := by
    rw [hn, hm]
    exact ⟨rfl, rfl, rfl, rfl, rfl⟩
  have hnan : Scalar.isNaN ((#[0 / 0] : Array Float).getD 0 0) := by decide +kernel
  refine ⟨s₀, hsetup, ?_⟩
  refine (undeceived_of_setup hsetup .refl hsized).2.mono fun s₁ ⟨hshows, hchecks⟩ => ?_
  refine ⟨hshows.primRes (.inr ⟨0, hnan⟩), hshows.dualRes (.inr ⟨e, he, hrow ▸ hnan⟩),
    fun approximate => (hchecks approximate).mono fun r hr s₂ hs₂ => ?_⟩
  have hstatus := hr s₂ hs₂
  exact ⟨hstatus.solved (.inl (hshows.primRes (.inr ⟨0, hnan⟩))),
    hstatus.primal ⟨0, hclosed, hnan⟩, hstatus.dual ⟨0, hnan⟩ ⟨0, hm ▸ Nat.one_pos, hloose⟩⟩

/-- A run ends with a status that tells of a step, and the step is not a number. -/
def EndsOn (P : Csc Float) (q : Array Float) (A : Csc Float) (l u : Array Float)
    (status : SolverStatus) (step : Iterate Float → Array Float) : Prop := ∃ s₀ stage,
  setup P q A l u Steep.settings .natural = .ok (.ok s₀) ∧ s₀.run Steep.clock = .ok stage ∧
    stage.solver.info.status = status ∧ Scalar.isNaN ((step stage.solver.iterate).getD 0 0)

theorem endsOn_of_firstRun {P A : Csc Float} {q l u : Array Float} {status : SolverStatus}
    {step : Iterate Float → Array Float}
    (h : firstRun P q A l u Steep.settings .natural Steep.clock (fun _ stage =>
      decide (stage.solver.info.status = status ∧
        Scalar.isNaN ((step stage.solver.iterate).getD 0 0))) = true) :
    EndsOn P q A l u status step := by
  obtain ⟨s₀, stage, hsetup, hrun, htest⟩ := exists_of_firstRun h
  exact ⟨s₀, stage, hsetup, hrun, of_decide_eq_true htest⟩

/-- **Runs that end on what is not a number:** found unbounded by such a `δx`, without
constraints and with one that is open on both sides; and found infeasible by a `δy` that is
none in a row open above. -/
theorem endsOn_steep :
    EndsOn Steep.P Steep.q ⟨0, 1, #[0, 0], #[], #[]⟩ #[] #[] .dualInfeasible (·.deltaX) ∧
    EndsOn Steep.P Steep.q Steep.A #[-1e30] #[1e30] .dualInfeasible (·.deltaX) ∧
    EndsOn ⟨2, 2, #[0, 1, 2], #[0, 1], #[1, 1]⟩ #[1.5e308, 0]
      ⟨3, 2, #[0, 1, 3], #[0, 1, 2], #[1, 1, 1]⟩ #[0, 1, -1e30] #[1e30, 1e30, -1]
      .primalInfeasible (·.deltaY) :=
  ⟨endsOn_of_firstRun (by decide +kernel), endsOn_of_firstRun (by decide +kernel),
    endsOn_of_firstRun (by decide +kernel)⟩

end Solver

end SplitQP
