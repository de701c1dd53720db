import SplitQP.Proofs.Admm.Consistent
import SplitQP.Proofs.Admm.Infeasibility
import SplitQP.Proofs.Admm.Certificates
/-!
# Infinite bounds under scaling

Bounds are scaled with their rows and then compared with one threshold,
which is as far below `boundInfinity` as the smallest factor is below one.
Factors multiply, though, from round to round, so a row can be scaled by
less (`e_mem_of_setup`), and a finite bound can be larger. What a row is
treated as, by the step sizes and by both infeasibility tests, depends on
nothing but the scaled bounds and is right exactly where they stand on
their side of the threshold (`treats_of_setup`).
-/

namespace SplitQP

open Checked SplitQP.Dense

variable {K : Type} [ExactField K]

/-! ## What a row is treated as -/

namespace StepSizes

/-- A row is loose where both bounds count as infinite. -/
theorem kindOf_eq_loose_iff {l u : K} :
    kindOf l u = .loose ↔ unbounded < u ∧ l < -unbounded := by
  rw [kindOf]
  split_ifs with hloose
  all_goals simpa [and_comm] using hloose

end StepSizes

namespace Infeasibility

variable {p : Problem K} {m : ℕ} {i : Fin m}

/-- **No multiplier pulls at a bound** that is open above, and only at such a one. -/
theorem restrict_nonpos_iff : (∀ v, restrict p v i ≤ 0) ↔ OpenAbove p i := by
  refine ⟨fun h => ?_, fun ha v => (respects_restrict p v).nonpos i ha⟩
  by_contra ha
  have hone := h fun _ => 1
  rw [restrict_apply, if_neg ha, if_neg ha, max_eq_left zero_le_one, ite_self] at hone
  exact absurd hone (not_le.mpr one_pos)

theorem restrict_nonneg_iff : (∀ v, 0 ≤ restrict p v i) ↔ OpenBelow p i := by
  refine ⟨fun h => ?_, fun hb v => (respects_restrict p v).nonneg i hb⟩
  by_contra hb
  have hone := h fun _ => -1
  rw [restrict_apply, if_neg hb, min_eq_left (by norm_num), ite_self] at hone
  exact absurd hone (by norm_num)

/-- **Any movement upwards** stays within bounds that are open above, and only there. -/
theorem staysWithin_rise_iff {l u : K} :
    (∀ tolerance rise, 0 ≤ tolerance → 0 ≤ rise → staysWithin tolerance l u rise = true) ↔
      StepSizes.unbounded < u := by
  constructor
  · intro h
    have hone := h 0 1 le_rfl zero_le_one
    simpa [staysWithin, not_le.mpr (one_pos : (0 : K) < 1)] using hone
  · intro hu tolerance rise htol hrise
    have hle : -tolerance ≤ rise := by linarith
    simp [staysWithin, hu, hle]

theorem staysWithin_fall_iff {l u : K} :
    (∀ tolerance fall, 0 ≤ tolerance → fall ≤ 0 → staysWithin tolerance l u fall = true) ↔
      l < -StepSizes.unbounded := by
  constructor
  · intro h
    have hone := h 0 (-1) le_rfl (by norm_num)
    simpa [staysWithin, not_le.mpr (one_pos : (0 : K) < 1)] using hone
  · intro hl tolerance fall htol hfall
    have hle : fall ≤ tolerance := by linarith
    simp [staysWithin, hl, hle]

end Infeasibility

namespace Solver

open Infeasibility

variable {s : Solver K} {m : ℕ}

/-- **What a row is treated as,** wherever that is asked: unbounded above where `above`
holds and unbounded below where `below` does. -/
structure Treats (above below : Prop) (s : Solver K) (i : Fin m) : Prop where
  /-- It is of the kind without bounds, -/
  loose : s.rows[i.val]? = some .loose ↔ above ∧ below
  /-- which takes the smallest step. -/
  smallest : above → below → s.steps.rho.getD i 0 = StepSizes.smallest
  /-- Multipliers that the infeasibility test looks at never pull at the upper bound, -/
  nonpos : (∀ v : Fin m → K, restrict s.problem v i ≤ 0) ↔ above
  /-- nor at the lower one. -/
  nonneg : (∀ v : Fin m → K, 0 ≤ restrict s.problem v i) ↔ below
  /-- A direction in which the objective descends may rise here, -/
  rises : (∀ tolerance rise, 0 ≤ tolerance → 0 ≤ rise → staysWithin tolerance
    (s.problem.l.getD i 0) (s.problem.u.getD i 0) rise = true) ↔ above
  /-- or fall. -/
  falls : (∀ tolerance fall, 0 ≤ tolerance → fall ≤ 0 → staysWithin tolerance
    (s.problem.l.getD i 0) (s.problem.u.getD i 0) fall = true) ↔ below

/-- **The kinds of rows are those of the scaled bounds.** -/
structure Classified (shift : K) (s : Solver K) : Prop where
  consistent : Consistent shift s
  rows_eq : s.rows = StepSizes.kinds s.problem.l s.problem.u

/-- **Runs keep this.** -/
theorem invariant_classified {shift : K} : Invariant shift (Classified shift) fun _ => True where
  fits h := h.consistent.fits
  sized h _ hv := ⟨invariant_consistent.sized h.consistent hv, h.rows_eq⟩
  noted h r info sol set := ⟨invariant_consistent.noted h.consistent r info sol set, h.rows_eq⟩
  rescaled h rho := (invariant_consistent.rescaled h.consistent rho).mono fun _ hr =>
    ⟨hr.1, hr.2, h.rows_eq⟩

theorem Classified.kindOf_eq {shift : K} (h : Classified shift s) (hm : s.problem.m = m)
    (i : Fin m) : s.rows[i.val]? =
      some (StepSizes.kindOf (s.problem.l.getD i 0) (s.problem.u.getD i 0)) := by
  have hl : i < s.problem.l.size := by rw [h.consistent.fits.sound.size_l, hm]; exact i.isLt
  have hu : i < s.problem.u.size := by rw [h.consistent.fits.sound.size_u, hm]; exact i.isLt
  rw [h.rows_eq, StepSizes.kinds, getD_of_lt 0 hl, getD_of_lt 0 hu]
  simp [hl, hu]

/-- **A row is treated as what its scaled bounds say,** and as nothing else. -/
theorem Classified.treats_iff {shift : K} (h : Classified shift s) (hm : s.problem.m = m)
    (i : Fin m) {above below : Prop} : Treats above below s i ↔
      (OpenAbove s.problem i ↔ above) ∧ (OpenBelow s.problem i ↔ below) := by
  constructor
  · -- the test for primal infeasibility alone tells what both bounds are taken as
    intro ht
    exact ⟨restrict_nonpos_iff.symm.trans ht.nonpos, restrict_nonneg_iff.symm.trans ht.nonneg⟩
  · rintro ⟨ha, hb⟩
    have hkind := h.kindOf_eq hm i
    have hloose : s.rows[i.val]? = some .loose ↔ above ∧ below := by
      rw [hkind, Option.some_inj, StepSizes.kindOf_eq_loose_iff, ← ha, ← hb]
      rfl
    refine ⟨hloose, fun habove hbelow => ?_, restrict_nonpos_iff.trans ha,
      restrict_nonneg_iff.trans hb, staysWithin_rise_iff.trans ha, staysWithin_fall_iff.trans hb⟩
    obtain ⟨base, hsteps⟩ := h.consistent.steps_eq
    have hrow := hloose.mpr ⟨habove, hbelow⟩
    obtain ⟨hlt, hrow⟩ := Array.getElem?_eq_some_iff.mp hrow
    rw [hsteps, StepSizes.ofBase, getD_map .loose 0 hlt, getD_of_lt _ hlt, hrow]
    rfl

theorem classified_of_setup {P A : Csc K} {q l u : Array K} {settings : Settings K}
    {order : EliminationOrder} {s₀ : Solver K}
    (hsetup : setup P q A l u settings order = .ok (.ok s₀)) (hmoves : Moves s₀ s) :
    Classified settings.sigma s := by
  obtain ⟨-, -, -, -, hrows⟩ := scaled_of_setup hsetup
  exact invariant_classified.of_moves ⟨(starts_of_setup hsetup).consistent, hrows⟩ hmoves

end Solver

/-! ## How far rows are scaled -/

namespace Equilibration

/-- **Rows are scaled by at most `100`ᵏ,** in either direction. -/
def Within (m k : ℕ) (e : Array K) : Prop :=
  ∀ i < m, ((100 : K) ^ k)⁻¹ ≤ e.getD i 0 ∧ e.getD i 0 ≤ 100 ^ k

theorem limit_mem (v : K) : minScaling ≤ limit v ∧ limit v ≤ maxScaling := by
  have hone : (minScaling : K) ≤ 1 ∧ (1 : K) ≤ maxScaling := by
    rw [minScaling, maxScaling]
    norm_num
  rw [limit]
  split_ifs with hsmall hlarge
  · exact hone
  · exact ⟨hone.1.trans hone.2, le_rfl⟩
  · rw [ExactField.lt_iff, not_lt] at hsmall hlarge
    exact ⟨hsmall, hlarge⟩

/-- **One factor,** where roots are exact. -/
theorem factorOf_mem (hroot : ∀ v : K, 0 < v → Scalar.sqrt v * Scalar.sqrt v = v) (v : K) :
    (100 : K)⁻¹ ≤ factorOf v ∧ factorOf v ≤ 100 := by
  obtain ⟨hge, hle⟩ := limit_mem v
  have hsq := hroot _ (limit_pos v)
  have hpos := ExactField.sqrt_pos (limit_pos v)
  rw [minScaling] at hge
  rw [maxScaling] at hle
  have hlow : (100 : K)⁻¹ ≤ Scalar.sqrt (limit v) := by
    rw [mul_self_le_mul_self_iff (by norm_num) hpos.le, hsq]
    exact le_trans (by norm_num) hge
  have hhigh : Scalar.sqrt (limit v) ≤ 100 := by
    rw [mul_self_le_mul_self_iff hpos.le (by norm_num), hsq]
    exact hle.trans (by norm_num)
  rw [factorOf, ExactField.recip_eq]
  exact ⟨inv_anti₀ hpos hhigh, inv_le_of_inv_le₀ (by norm_num) hlow⟩

section Rounds

variable (hroot : ∀ v : K, 0 < v → Scalar.sqrt v * Scalar.sqrt v = v) {n m k : ℕ}

include hroot

/-- **One round.** -/
theorem balance_ensures_within {s : Scaled K} (h : s.Fits n m) (he : Within m k s.e) :
    Ensures (balance s) fun s' => s'.Fits n m ∧ Within m (k + 1) s'.e := by
  obtain ⟨s', hs', d, e, hb⟩ := balance_ensures_balanced h.sound (h.size_d.trans h.n_eq.symm)
    (h.size_e.trans h.m_eq.symm)
  refine .of_eq hs' ⟨(balance_ensures_fits h).of_eq_ok hs', fun i hi => ?_⟩
  obtain ⟨v, hv⟩ := hb.e_eq i (by rw [h.m_eq]; exact hi)
  obtain ⟨hlow, hhigh⟩ := factorOf_mem hroot v
  obtain ⟨hlow', hhigh'⟩ := he i hi
  rw [hb.eq]
  dsimp only
  rw [getD_mul h.size_e (hb.size_e.trans h.m_eq), hv, pow_succ, mul_inv]
  have hpos : 0 ≤ s.e.getD i 0 := le_trans (by positivity) hlow'
  exact ⟨mul_le_mul hlow' hlow (by norm_num) hpos,
    mul_le_mul hhigh' hhigh (factorOf_pos v).le (by positivity)⟩

/-- **Any number of rounds.** -/
theorem rounds_ensures_within (count : ℕ) {s : Scaled K} (h : s.Fits n m) (he : Within m k s.e) :
    Ensures (rounds count s) fun s' => Within m (k + count) s'.e := by
  induction count generalizing k s with
  | zero => exact .ok he
  | succ count ih =>
    rw [rounds]
    refine (balance_ensures_within hroot h he).bind ?_
    rintro s₁ ⟨h₁, he₁⟩
    -- scaling the objective leaves the rows alone
    obtain ⟨s₂, hs₂, v, hv⟩ := scaleObjective_ensures_eq h₁.sound
    have h₂ := (scaleObjective_ensures_fits h₁).of_eq_ok hs₂
    have he₂ : Within m (k + 1) s₂.e := by
      rw [hv]
      exact he₁
    rw [hs₂, ok_bind, Nat.add_comm count 1, ← Nat.add_assoc]
    exact ih h₂ he₂

theorem equilibrate_ensures_within {p : Problem K} (hp : p.Sound) (count : ℕ) :
    Ensures (equilibrate count p) fun r => Within p.m count r.2.e := by
  have hstart : Within p.m 0 (constant p.m (1 : K)) := by
    intro i hi
    rw [getD_constant hi]
    norm_num
  have hfits : Scaled.Fits p.n p.m ⟨p, constant p.n (1 : K), constant p.m 1, 1⟩ :=
    ⟨hp, rfl, rfl, size_constant, size_constant⟩
  obtain ⟨s, hs, hwithin⟩ := rounds_ensures_within hroot count hfits hstart
  have h := (rounds_ensures_fits count hfits).of_eq_ok hs
  rw [equilibrate, hs, ok_bind, hadamard_eq_ok (hp.size_l.trans h.size_e.symm), ok_bind,
    hadamard_eq_ok (hp.size_u.trans h.size_e.symm), ok_bind]
  rw [Nat.zero_add] at hwithin
  exact .ok hwithin

end Rounds

end Equilibration

/-! ## The threshold -/

namespace Problem

variable {e l u : K}

/-- **The threshold separates** finite from infinite bounds in a row that is scaled by
`e`. -/
structure Separated (e l u : K) : Prop where
  infinite_u : boundInfinity ≤ u → minScaling < e
  finite_u : u < boundInfinity → u * e ≤ StepSizes.unbounded
  infinite_l : l ≤ -boundInfinity → minScaling < e
  finite_l : -boundInfinity < l → -StepSizes.unbounded ≤ l * e

theorem boundInfinity_pos : 0 < (boundInfinity : K) := by
  rw [boundInfinity]
  norm_num

/-- Beyond the threshold are an infinite bound whose row keeps more than the smallest
factor, and a finite one that is large enough in its row. -/
theorem clipUpper_mul_iff :
    (StepSizes.unbounded < clipUpper u * e ↔ boundInfinity ≤ u) ↔
      (boundInfinity ≤ u → minScaling < e) ∧
        (u < boundInfinity → u * e ≤ StepSizes.unbounded) := by
  rw [clipUpper, ExactField.min_eq, StepSizes.unbounded]
  rcases le_or_gt boundInfinity u with hu | hu
  · rw [min_eq_right hu, mul_lt_mul_iff_right₀ boundInfinity_pos]
    simp [hu, not_lt.mpr hu]
  · rw [min_eq_left hu.le]
    simp [hu, not_le.mpr hu]

/-- Lower bounds are upper bounds upside down. -/
theorem clipLower_eq_neg : clipLower l = -clipUpper (-l) := by
  rw [clipLower, clipUpper, ExactField.max_eq, ExactField.min_eq, ← max_neg_neg, neg_neg]

theorem clipLower_mul_iff :
    (clipLower l * e < -StepSizes.unbounded ↔ l ≤ -boundInfinity) ↔
      (l ≤ -boundInfinity → minScaling < e) ∧
        (-boundInfinity < l → -StepSizes.unbounded ≤ l * e) := by
  have hmirror := clipUpper_mul_iff (e := e) (u := -l)
  rwa [le_neg, neg_lt, neg_mul, neg_le, ← neg_neg (clipUpper (-l)), ← clipLower_eq_neg, neg_mul,
    lt_neg] at hmirror

theorem separated_iff : Separated e l u ↔
    (StepSizes.unbounded < clipUpper u * e ↔ boundInfinity ≤ u) ∧
      (clipLower l * e < -StepSizes.unbounded ↔ l ≤ -boundInfinity) := by
  rw [clipUpper_mul_iff, clipLower_mul_iff]
  exact ⟨fun h => ⟨⟨h.1, h.2⟩, h.3, h.4⟩, fun h => ⟨h.1.1, h.1.2, h.2.1, h.2.2⟩⟩

end Problem

namespace Solver

open Infeasibility Problem

variable {P A : Csc K} {q l u : Array K} {settings : Settings K} {order : EliminationOrder}
  {s₀ s : Solver K}

/-- Bounds are held clipped and scaled. -/
theorem open_of_setup (hsetup : setup P q A l u settings order = .ok (.ok s₀))
    (hmoves : Moves s₀ s) (i : Fin l.size) :
    (OpenAbove s.problem i ↔
      StepSizes.unbounded < clipUpper (u.getD i 0) * s.equilibration.e.getD i 0) ∧
    (OpenBelow s.problem i ↔
      clipLower (l.getD i 0) * s.equilibration.e.getD i 0 < -StepSizes.unbounded) := by
  obtain ⟨-, p₀, hdata, heq⟩ := equilibrated_of_setup hsetup
  have hacc := accepted_of_ofData hdata
  obtain ⟨hp, he⟩ := problem_of_moves hmoves
  rw [← hp, ← he] at heq
  have hi : i.val < p₀.m := by rw [hacc.m_eq]; exact i.isLt
  rw [OpenAbove, OpenBelow, heq.u_eq i hi, heq.l_eq i hi, hacc.getD_u i.isLt, hacc.getD_l i.isLt]
  exact ⟨.rfl, .rfl⟩

theorem m_eq_of_setup (hsetup : setup P q A l u settings order = .ok (.ok s₀))
    (hmoves : Moves s₀ s) : s.problem.m = l.size := by
  obtain ⟨-, p₀, hdata, heq⟩ := equilibrated_of_setup hsetup
  rw [(problem_of_moves hmoves).1, heq.scales.m_eq, (accepted_of_ofData hdata).m_eq]

/-- **What rows are treated as.** Whatever has become of a solver since it was set up, the
step sizes and both infeasibility tests take a bound as infinite where it is beyond the
threshold once it is clipped and scaled with its row. That is where the bound given is
infinite exactly if the threshold separates the two in this row. -/
theorem treats_of_setup (hsetup : setup P q A l u settings order = .ok (.ok s₀))
    (hmoves : Moves s₀ s) (i : Fin l.size) :
    Treats (StepSizes.unbounded < clipUpper (u.getD i 0) * s.equilibration.e.getD i 0)
      (clipLower (l.getD i 0) * s.equilibration.e.getD i 0 < -StepSizes.unbounded) s i ∧
    (Treats (boundInfinity ≤ u.getD i 0) (l.getD i 0 ≤ -boundInfinity) s i ↔
      Separated (s.equilibration.e.getD i 0) (l.getD i 0) (u.getD i 0)) := by
  have hclass := classified_of_setup hsetup hmoves
  have hm := m_eq_of_setup hsetup hmoves
  obtain ⟨habove, hbelow⟩ := open_of_setup hsetup hmoves i
  rw [hclass.treats_iff hm, hclass.treats_iff hm, separated_iff, habove, hbelow]
  exact ⟨⟨.rfl, .rfl⟩, .rfl⟩

/-- **Rows are scaled by at most `100` a round,** where roots are exact. -/
theorem e_mem_of_setup (hroot : ∀ v : K, 0 < v → Scalar.sqrt v * Scalar.sqrt v = v)
    (hsetup : setup P q A l u settings order = .ok (.ok s₀)) (hmoves : Moves s₀ s) :
    Equilibration.Within l.size settings.scaling s.equilibration.e := by
  obtain ⟨-, p₀, hdata, hscaled, -⟩ := scaled_of_setup hsetup
  have hacc := accepted_of_ofData hdata
  have hwithin := (Equilibration.equilibrate_ensures_within hroot hacc.sound
    settings.scaling).of_eq_ok hscaled
  rw [(problem_of_moves hmoves).2, ← hacc.m_eq]
  exact hwithin

/-- **In one round at most** the threshold separates all bounds that are not larger than
`10¹⁴` without being infinite. -/
theorem separated_of_setup (hroot : ∀ v : K, 0 < v → Scalar.sqrt v * Scalar.sqrt v = v)
    (hsetup : setup P q A l u settings order = .ok (.ok s₀)) (hmoves : Moves s₀ s)
    (hrounds : settings.scaling ≤ 1) {i : ℕ} (hi : i < l.size)
    (hu : boundInfinity ≤ u.getD i 0 ∨ u.getD i 0 ≤ 1e14)
    (hl : l.getD i 0 ≤ -boundInfinity ∨ -1e14 ≤ l.getD i 0) :
    Separated (s.equilibration.e.getD i 0) (l.getD i 0) (u.getD i 0) := by
  obtain ⟨hlow, hhigh⟩ := e_mem_of_setup hroot hsetup hmoves i hi
  have hpow : (100 : K) ^ settings.scaling ≤ 100 := by
    simpa using pow_le_pow_right₀ (by norm_num : (1 : K) ≤ 100) hrounds
  have hlarge := inv_anti₀ (by positivity) hpow
  have hkept : minScaling < s.equilibration.e.getD i 0 := by
    refine lt_of_lt_of_le ?_ (hlarge.trans hlow)
    rw [minScaling]
    norm_num
  have hpos : 0 < s.equilibration.e.getD i 0 := lt_of_lt_of_le (by positivity) hlow
  have hbounded : (1e14 : K) * s.equilibration.e.getD i 0 ≤ StepSizes.unbounded := by
    refine (mul_le_mul_of_nonneg_left (hhigh.trans hpow) (by norm_num)).trans ?_
    rw [StepSizes.unbounded, boundInfinity, minScaling]
    norm_num
  refine ⟨fun _ => hkept, fun hfin => ?_, fun _ => hkept, fun hfin => ?_⟩
  · refine le_trans (mul_le_mul_of_nonneg_right ?_ hpos.le) hbounded
    exact hu.resolve_left (not_le.mpr hfin)
  · have hle := mul_le_mul_of_nonneg_right (hl.resolve_left (not_le.mpr hfin)) hpos.le
    rw [neg_mul] at hle
    exact (neg_le_neg hbounded).trans hle

end Solver

/-! ## A slope in other units -/

namespace Slope

/-- The row of `Slope.A` in other units. -/
def steep : Csc ℚ := ⟨1, 1, #[0, 1], #[0], #[10 ^ 12]⟩

/-- Rounds of scaling, and few iterations. -/
def rescaled (rounds : ℕ) : Settings ℚ := { settings with
  scaling := rounds
  maxIter := 12 }

end Slope

namespace Solver

open Infeasibility Problem

/-- After one round there is still no end to be seen. -/
theorem treats_of_setup_slope : ∃ s₀ stage,
    setup Slope.P Slope.q Slope.steep Slope.l Slope.u (Slope.rescaled 1) .natural =
        .ok (.ok s₀) ∧ s₀.run .still = .ok stage ∧ stage.solver.equilibration.e = #[1 / 100] ∧
      Treats (boundInfinity ≤ Slope.u.getD 0 0) (Slope.l.getD 0 0 ≤ -boundInfinity) stage.solver
        (0 : Fin 1) := by
  have hfirst : firstRun Slope.P Slope.q Slope.steep Slope.l Slope.u (Slope.rescaled 1) .natural
      .still (fun _ stage => decide (stage.solver.equilibration.e = #[1 / 100])) = true := by
    decide +kernel
  obtain ⟨s₀, stage, hsetup, hrun, htest⟩ := exists_of_firstRun hfirst
  have he := of_decide_eq_true htest
  have hseparated : Separated (stage.solver.equilibration.e.getD 0 0) (Slope.l.getD 0 0)
      (Slope.u.getD 0 0) := by
    rw [he]
    exact ⟨by decide +kernel, by decide +kernel, by decide +kernel, by decide +kernel⟩
  exact ⟨s₀, stage, hsetup, hrun, he,
    (treats_of_setup hsetup (ran_of_run hrun).moves (0 : Fin 1)).2.mpr hseparated⟩

/-- **The threshold does not always separate.** After ten rounds the slope without end has
one, and is not found; and where the end of it is far away there is none. -/
theorem not_treats_slope :
    (∃ s₀ stage, setup Slope.P Slope.q Slope.steep Slope.l Slope.u (Slope.rescaled 10) .natural =
        .ok (.ok s₀) ∧ s₀.run .still = .ok stage ∧
      stage.solver.info.status = .maxIterations ∧
      ¬ Treats (boundInfinity ≤ Slope.u.getD 0 0) (Slope.l.getD 0 0 ≤ -boundInfinity)
        stage.solver (0 : Fin 1)) ∧
    ∃ s₀ stage, setup Slope.P Slope.q Slope.A Slope.l #[10 ^ 17] Slope.settings .natural =
        .ok (.ok s₀) ∧ s₀.run .still = .ok stage ∧
      stage.solver.info.status = .dualInfeasible ∧
      ¬ Treats (boundInfinity ≤ (10 ^ 17 : ℚ)) (Slope.l.getD 0 0 ≤ -boundInfinity)
        stage.solver (0 : Fin 1) := by
  have hsteep : firstRun Slope.P Slope.q Slope.steep Slope.l Slope.u (Slope.rescaled 10) .natural
      .still (fun _ stage => decide (stage.solver.info.status = .maxIterations ∧
        ¬ OpenAbove stage.solver.problem 0)) = true := by
    decide +kernel
  have hfar : firstRun Slope.P Slope.q Slope.A Slope.l #[10 ^ 17] Slope.settings .natural .still
      (fun _ stage => decide (stage.solver.info.status = .dualInfeasible ∧
        OpenAbove stage.solver.problem 0)) = true := by
    decide +kernel
  constructor
  · obtain ⟨s₀, stage, hsetup, hrun, htest⟩ := exists_of_firstRun hsteep
    obtain ⟨hstatus, hclosed⟩ := of_decide_eq_true htest
    refine ⟨s₀, stage, hsetup, hrun, hstatus, fun h => hclosed ?_⟩
    exact restrict_nonpos_iff.mp (h.nonpos.mpr (by decide +kernel))
  · obtain ⟨s₀, stage, hsetup, hrun, htest⟩ := exists_of_firstRun hfar
    obtain ⟨hstatus, hopen⟩ := of_decide_eq_true htest
    refine ⟨s₀, stage, hsetup, hrun, hstatus, fun h => ?_⟩
    exact absurd (h.nonpos.mp (restrict_nonpos_iff.mpr hopen)) (by decide +kernel)

end Solver

end SplitQP
