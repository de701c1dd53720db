import SplitQP.Proofs.Admm.Bounds
import SplitQP.Proofs.Admm.Stationary
import SplitQP.Proofs.Admm.Polished
/-!
# Rows that meet a bound

An iteration of any program that is accepted, convex or not, ends with a `z`
within its bounds whose `y` is not zero only where `z` meets the bound it
points to (`Invariant.complementary_of_steps`). The gaps that polishing
compares are zero there, so its guess is a reading of the signs of `y`:
rows with a multiplier are active, on the side it points to, and the bounds
that are met are the `z` of these rows (`Polish.Reads`). That is so after
any search, whatever came before it (`reads_of_setup`).
-/

namespace SplitQP

open Checked SplitQP.Dense

variable {K : Type} [ExactField K]

namespace Polish

variable {p : Problem K} {v : Iterate K}

/-! ## One row -/

section Row

variable {l u z y : K} (hl : l ≤ z) (hu : z ≤ u) (hupper : 0 < y → z = u) (hlower : y < 0 → z = l)

include hl hu hupper hlower

/-- **The sign of `y` is the side** where `z` meets the bound that `y` points to. -/
theorem sideOf_eq : sideOf l u z y = if y < 0 then .lower else if 0 < y then .upper else .none := by
  have hgapl : 0 ≤ z - l := sub_nonneg.mpr hl
  have hgapu : 0 ≤ u - z := sub_nonneg.mpr hu
  simp only [sideOf, ExactField.lt_iff]
  rcases lt_trichotomy y 0 with hy | rfl | hy
  · rw [hlower hy, sub_self, if_pos (neg_pos.mpr hy), if_pos hy]
  · rw [neg_zero, if_neg hgapl.not_gt, if_neg hgapu.not_gt, if_neg (lt_irrefl _),
      if_neg (lt_irrefl _)]
  · rw [if_neg ((neg_neg_of_pos hy).le.trans hgapl).not_gt, hupper hy, sub_self, if_pos hy,
      if_neg hy.not_gt]

theorem sideOf_iff : (sideOf l u z y ≠ .none ↔ y ≠ 0) ∧ (sideOf l u z y = .lower ↔ y < 0) ∧
    (sideOf l u z y = .upper ↔ 0 < y) := by
  rw [sideOf_eq hl hu hupper hlower]
  rcases lt_trichotomy y 0 with hy | rfl | hy
  · simp [hy, hy.ne, hy.le]
  · simp
  · simp [hy, hy.ne', hy.not_gt]

/-- The bound that is met is `z`. -/
theorem metBound_sideOf : metBound ((l, u), sideOf l u z y) = if y = 0 then none else some z := by
  rw [sideOf_eq hl hu hupper hlower]
  rcases lt_trichotomy y 0 with hy | rfl | hy
  · rw [if_pos hy, if_neg hy.ne, hlower hy, metBound]
  · rw [if_neg (lt_irrefl _), if_neg (lt_irrefl _), if_pos rfl, metBound]
  · rw [if_neg hy.not_gt, if_pos hy, if_neg hy.ne', hupper hy, metBound]

end Row

/-! ## All rows -/

/-- **The guess is what the signs of `y` say:** rows with a multiplier are active, on the
side it points to, and the bounds that are met are their `z`, in the order of the rows. -/
structure Reads (p : Problem K) (v : Iterate K) : Prop where
  active_iff : ∀ i < p.m, (isActive (sides p v)).getD i false = true ↔ v.y.getD i 0 ≠ 0
  lower_iff : ∀ i < p.m, (sides p v).getD i .none = .lower ↔ v.y.getD i 0 < 0
  upper_iff : ∀ i < p.m, (sides p v).getD i .none = .upper ↔ 0 < v.y.getD i 0
  metBounds_eq : metBounds p (sides p v) =
    (v.z.zip v.y).filterMap fun (z, y) => if y = 0 then none else some z

/-- **The bounds that are met** are the `z` of the rows with a multiplier. -/
theorem metBounds_of_atBounds (hp : p.Sound) (hv : v.Sized p.n p.m) (h : v.AtBounds p) :
    metBounds p (sides p v) =
      (v.z.zip v.y).filterMap fun (z, y) => if y = 0 then none else some z := by
  have hrows : ((p.l.zip p.u).zip (sides p v)).map metBound =
      (v.z.zip v.y).map fun (z, y) => if y = 0 then none else some z := by
    have hs := size_sides hp hv.size_z hv.size_y
    have hl := hp.size_l
    have hu := hp.size_u
    have hz := hv.size_z
    have hy := hv.size_y
    refine Array.ext (by simp [hs, hl, hu, hz, hy]) fun i hi _ => ?_
    have him : i < p.m := by simpa [hs, hl, hu] using hi
    have hrow := metBound_sideOf (h.ge i him) (h.le i him) (h.upper i him) (h.lower i him)
    rw [← getD_sides hp hv him, getD_of_lt 0 (by omega), getD_of_lt 0 (by omega),
      getD_of_lt 0 (by omega), getD_of_lt 0 (by omega), getD_of_lt _ (by omega)] at hrow
    simpa using hrow
  rw [metBounds_eq, ← Function.id_comp metBound, ← Array.filterMap_map, hrows, Array.filterMap_map]
  rfl

/-- **At its bounds an iterate can be read.** -/
theorem reads_of_atBounds (hp : p.Sound) (hv : v.Sized p.n p.m) (h : v.AtBounds p) :
    Reads p v := by
  have hrow := fun i (hi : i < p.m) =>
    sideOf_iff (h.ge i hi) (h.le i hi) (h.upper i hi) (h.lower i hi)
  refine ⟨fun i hi => ?_, fun i hi => ?_, fun i hi => ?_, metBounds_of_atBounds hp hv h⟩
  · have hsize : i < (sides p v).size := by rwa [size_sides hp hv.size_z hv.size_y]
    rw [getD_isActive hsize, getD_sides hp hv hi]
    exact (hrow i hi).1
  · rw [getD_sides hp hv hi]
    exact (hrow i hi).2.1
  · rw [getD_sides hp hv hi]
    exact (hrow i hi).2.2

end Polish

namespace Solver

variable {shift : K} {s s₁ s₂ : Solver K}

/-! ## Whatever the program -/

/-- **After an iteration,** and any steps since, the guess can be read off. -/
theorem Consistent.reads_of_steps (h : Consistent shift s₁)
    (hlu : ∀ i < s₁.problem.m, s₁.problem.l.getD i 0 ≤ s₁.problem.u.getD i 0) {iter : ℕ}
    (hadv : s₁.advance iter = .ok s₂) (hsteps : Steps s₂ s) :
    s.iterate.AtBounds s.problem ∧ Polish.Reads s.problem s.iterate := by
  have h₂ := invariant_consistent.of_step h (.advanced hadv)
  have hfits := (invariant_consistent.of_moves h₂ (Steps.moves hsteps)).fits
  have hcomplementary := h.fits.complementary_of_advance h.sound_steps hlu hadv
  rw [← (problem_of_moves (.single (.step (.advanced hadv)))).1] at hlu
  have hbounds := (invariant_consistent.complementary_of_steps (fun _ ht => ht.sound_steps) hlu h₂
    hcomplementary hsteps).atBounds
  exact ⟨hbounds, Polish.reads_of_atBounds hfits.sound hfits.sized hbounds⟩

section Setup

variable {P A : Csc K} {q l u : Array K} {settings : Settings K} {order : EliminationOrder}
  {s₀ : Solver K}

/-- Bounds that clipping leaves in order are held in order. -/
theorem scaled_le_of_setup (hsetup : setup P q A l u settings order = .ok (.ok s₀))
    (hclip : ∀ i < l.size, Problem.clipLower (l.getD i 0) ≤ Problem.clipUpper (u.getD i 0))
    (hmoves : Moves s₀ s) :
    ∀ i < s.problem.m, s.problem.l.getD i 0 ≤ s.problem.u.getD i 0 := by
  obtain ⟨-, p₀, hdata, heq⟩ := equilibrated_of_setup hsetup
  have hacc := Problem.accepted_of_ofData hdata
  intro i hi
  rw [(problem_of_moves hmoves).1] at hi ⊢
  rw [heq.scales.m_eq] at hi
  have hil : i < l.size := by rwa [← hacc.m_eq]
  rw [heq.l_eq i hi, heq.u_eq i hi, hacc.getD_l hil, hacc.getD_u hil]
  exact mul_le_mul_of_nonneg_right (hclip i hil) (heq.scales.e_pos i hi).le

/-- **The guess that polishing starts from** reads off which bounds are met. Take any
program that is accepted with bounds that clipping leaves in order, whatever has become of
its solver. After its next iteration, through any further iterations, changes of the step
size and of settings, `z` is within its bounds and meets the one `y` points to; and the
guess says so of every row. So it does where polishing starts, after a search of at least
one iteration. -/
theorem reads_of_setup (hsetup : setup P q A l u settings order = .ok (.ok s₀))
    (hclip : ∀ i < l.size, Problem.clipLower (l.getD i 0) ≤ Problem.clipUpper (u.getD i 0))
    (hmoves : Moves s₀ s₁) :
    (∀ iter, Ensures (s₁.advance iter) fun s₂ => ∀ s, Steps s₂ s →
      s.iterate.AtBounds s.problem ∧ Polish.Reads s.problem s.iterate) ∧
    ∀ clock, 0 < s₁.settings.maxIter → Ensures (s₁.restarted.search clock) fun found =>
      found.solver.wantsPolish found.result = true →
        found.solver.iterate.AtBounds found.solver.problem ∧
        Polish.Reads found.solver.problem found.solver.iterate := by
  have h₁ := invariant_consistent.of_moves (starts_of_setup hsetup).consistent hmoves
  refine ⟨fun iter => ?_, fun clock hmaxIter => ?_⟩
  · obtain ⟨s₂, hadv, -⟩ := invariant_consistent.advance_ensures h₁ iter
    exact ⟨s₂, hadv, fun s hsteps =>
      h₁.reads_of_steps (scaled_le_of_setup hsetup hclip hmoves) hadv hsteps⟩
  · have hrestarted := invariant_consistent.noted h₁ s₁.residuals s₁.info.restart s₁.solution
      s₁.settings
    obtain ⟨found, hfound, -⟩ := invariant_consistent.search_ensures hrestarted clock
    refine ⟨found, hfound, fun hwants => ?_⟩
    rcases search_eq_ok (carried_restart s₁) hfound with ⟨-, hcrossed⟩ | hsearched
    · rw [hcrossed] at hwants
      simp [wantsPolish] at hwants
    -- some iteration came last, and nothing after it touches the iterate
    · obtain ⟨t, t', iter, hbefore, hadv, hafter⟩ := hsearched.advanced hmaxIter
      have hto : Moves s₁ t := (Steps.moves (steps_noted s₁ _ _ _)).trans (Steps.moves hbefore)
      exact (invariant_consistent.of_moves h₁ hto).reads_of_steps
        (scaled_le_of_setup hsetup hclip (hmoves.trans hto)) hadv hafter

end Setup

end Solver

/-! ## Rows of every kind -/

namespace Rungs

/-- `-½·x²` has no minimum; `x` is held from both sides, once each by an inequality and by
an equation, and one row leaves it free. -/
def P : Csc ℚ := ⟨1, 1, #[0, 1], #[0], #[-1]⟩

def q : Array ℚ := #[0]

def A : Csc ℚ := ⟨5, 1, #[0, 5], #[0, 1, 2, 3, 4], #[1, 1, 1, 1, 1]⟩

def l : Array ℚ := #[1, -2, 1 / 2, -1 / 2, -5]

def u : Array ℚ := #[2, -1, 1 / 2, -1 / 2, 5]

/-- The first iterate, at which the rows pull against each other, is close enough. -/
def settings : Settings ℚ := { Shelf.settings with
  sigma := 2
  epsAbs := 10 }

theorem clip_le : ∀ i < l.size,
    Problem.clipLower (l.getD i 0) ≤ Problem.clipUpper (u.getD i 0) := by
  decide +kernel

end Rungs

namespace Solver

theorem reads_of_setup_rungs : ∃ s₀ found,
    setup Rungs.P Rungs.q Rungs.A Rungs.l Rungs.u Rungs.settings .natural = .ok (.ok s₀) ∧
      s₀.restarted.search .still = .ok found ∧
      found.solver.wantsPolish found.result = true ∧
      guess found.solver = #[.lower, .upper, .lower, .upper, .none] ∧
      Polish.metBounds found.solver.problem (guess found.solver) = #[1, -1, 1 / 2, -1 / 2] ∧
      found.solver.iterate.AtBounds found.solver.problem ∧
      Polish.Reads found.solver.problem found.solver.iterate := by
  have hfirst : firstRun Rungs.P Rungs.q Rungs.A Rungs.l Rungs.u Rungs.settings .natural .still
      (fun s₀ _ => decide (0 < s₀.settings.maxIter ∧
        (s₀.restarted.search .still).toOption.any fun found =>
          decide (found.solver.wantsPolish found.result = true ∧
            guess found.solver = #[.lower, .upper, .lower, .upper, .none] ∧
            Polish.metBounds found.solver.problem (guess found.solver) =
              #[1, -1, 1 / 2, -1 / 2]))) = true := by
    decide +kernel
  obtain ⟨s₀, -, hsetup, -, htest⟩ := exists_of_firstRun hfirst
  obtain ⟨hmaxIter, htest⟩ := of_decide_eq_true htest
  obtain ⟨found, hfound, hreads⟩ := (reads_of_setup hsetup Rungs.clip_le .refl).2 .still hmaxIter
  rw [hfound] at htest
  obtain ⟨hwants, hguess, hmet⟩ := of_decide_eq_true htest
  exact ⟨s₀, found, hsetup, hfound, hwants, hguess, hmet, hreads hwants⟩

end Solver

end SplitQP
