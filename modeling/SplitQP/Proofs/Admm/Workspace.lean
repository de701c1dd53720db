import SplitQP.Proofs.Admm.Report
import SplitQP.Admm.Workspace
/-!
# Nothing is read of what was left

Residuals and infeasibility tests computed in place answer what they do in
fresh vectors, on whatever was left in the workspace, and leave vectors that
the next computation can use (`Workspace.unread`). Products are the only step
that could read what was there, and they count it zero times.
-/

namespace SplitQP

open Checked SplitQP.Dense

namespace Workspace

variable {α β γ : Type} {n m : ℕ} {w : Workspace α}

/-- Vectors of the lengths of the program. -/
structure Sized (n m : ℕ) (w : Workspace α) : Prop where
  size_ax : w.ax.size = m
  size_px : w.px.size = n
  size_aty : w.aty.size = n
  size_workN : w.workN.size = n
  size_workM : w.workM.size = m

theorem Sized.set_workN {v : Array α} (h : w.Sized n m) (hv : v.size = n) :
    { w with workN := v }.Sized n m := { h with size_workN := hv }

theorem Sized.set_workM {v : Array α} (h : w.Sized n m) (hv : v.size = m) :
    { w with workM := v }.Sized n m := { h with size_workM := hv }

theorem sized_zero [Scalar α] (n m : ℕ) : (zero n m : Workspace α).Sized n m := by
  constructor <;> exact size_constant

/-- Nothing is left of a vector that is written over from end to end. -/
theorem put_eq {dst src : Array α} (h : src.size = dst.size) : put dst src = src := by
  refine Array.ext (by simp [put, h]) fun i hi hi' => ?_
  simp [put, Array.getD, hi']

/-- **The same in place:** `x` ends as `y` does, and leaves vectors of the lengths of the
program. -/
def InPlace (n m : ℕ) (x : Checked (β × Workspace α)) (y : Checked β) : Prop :=
  x.map Prod.fst = y ∧ ∀ r, x = .ok r → r.2.Sized n m

namespace InPlace

theorem ok (h : w.Sized n m) (b : β) : InPlace n m (.ok (b, w)) (.ok b) :=
  ⟨rfl, fun _ hr => by cases hr; exact h⟩

/-- A step that does not touch the workspace. -/
theorem bind {c : Checked γ} {f : γ → Checked (β × Workspace α)} {g : γ → Checked β}
    (h : ∀ v, c = .ok v → InPlace n m (f v) (g v)) : InPlace n m (c >>= f) (c >>= g) := by
  cases c with
  | error e => exact ⟨rfl, fun _ hr => by cases hr⟩
  | ok v => exact h v rfl

/-- A computation that does not touch the workspace. -/
theorem keep (h : w.Sized n m) (c : Checked β) : InPlace n m (c >>= fun b => .ok (b, w)) c := by
  cases c with
  | error e => exact ⟨rfl, fun _ hr => by cases hr⟩
  | ok b => exact ok h b

theorem ite {c : Prop} [Decidable c] {x x' : Checked (β × Workspace α)} {y y' : Checked β}
    (h : InPlace n m x y) (h' : InPlace n m x' y') :
    InPlace n m (if c then x else x') (if c then y else y') := by
  by_cases hc : c
  · rwa [if_pos hc, if_pos hc]
  · rwa [if_neg hc, if_neg hc]

end InPlace

end Workspace

variable {α : Type} [Scalar α] {p : Problem α} {w : Workspace α}

open Workspace

namespace Residuals

/-- Three products and two gaps are measured. -/
theorem atPoint_eq (p : Problem α) (eq : Equilibration α) (x z y : Array α) :
    atPoint p eq x z y = (do
      let ax ← p.A.mulVec 1 x 0 (constant p.m 0)
      let px ← p.P.mulSymVec 1 x 0 (constant p.n 0)
      let aty ← p.A.mulTransposeVec 1 y 0 (constant p.n 0)
      let prim ← combineTo (constant p.m 0) 1 ax (-1) z
      measure p eq x z ax px aty prim ((px.zipWith (· + ·) p.q).zipWith (· + ·) aty)) := rfl

/-- **Residuals in place** are the residuals. -/
theorem inPlace_atPoint (hzero : Scalar.eq (0 : α) 0 = true) (hp : p.Sound)
    (hw : w.Sized p.n p.m) (eq : Equilibration α) (x z y : Array α) :
    InPlace p.n p.m (atPointIn w p eq x z y) (atPoint p eq x z y) := by
  rw [atPointIn, atPoint_eq, Csc.mulVec_over hzero (hw.size_ax.trans size_constant.symm),
    Csc.mulSymVec_over hzero (hw.size_px.trans size_constant.symm),
    Csc.mulTransposeVec_over hzero (hw.size_aty.trans size_constant.symm)]
  refine .bind fun ax hax => .bind fun px hpx => .bind fun aty haty => ?_
  have hsizeax := (Csc.size_of_mulVec hp.wellFormed_A hax).2.trans hp.nrows_A
  have hsizepx := (Csc.size_of_mulSymVec hp.wellFormed_P hpx).2.trans hp.ncols_P
  have hsizeaty := (Csc.size_of_mulTransposeVec hp.wellFormed_A haty).2.trans hp.ncols_A
  rw [combineTo_of_size (hw.size_workM.trans size_constant.symm)]
  refine .bind fun prim hprim => ?_
  have hsizeprim := (size_of_combineTo hprim).trans size_constant
  have hdual : ((px.zipWith (· + ·) p.q).zipWith (· + ·) aty).size = p.n :=
    size_zipWith (size_zipWith hsizepx hp.size_q) hsizeaty
  rw [put_eq (hdual.trans hw.size_workN.symm)]
  exact .keep (w := ⟨ax, px, aty, _, prim⟩) ⟨hsizeax, hsizepx, hsizeaty, hdual, hsizeprim⟩ _

end Residuals

namespace Infeasibility

/-- **The primal test in place** is the test. -/
theorem inPlace_isPrimal (hzero : Scalar.eq (0 : α) 0 = true) (hp : p.Sound)
    (hw : w.Sized p.n p.m) (eq : Equilibration α) (deltaY : Array α) (eps : α) :
    InPlace p.n p.m (isPrimalIn w p eq deltaY eps) (isPrimal p eq deltaY eps) := by
  rw [isPrimalIn, isPrimal, copyTo_of_size (hw.size_workM.trans size_constant.symm)]
  refine .bind fun dy hdy => ?_
  have hsize := (size_of_copyTo hdy).trans size_constant
  have hproj := size_projected hp hsize
  dsimp only
  rw [put_eq (hproj.trans hsize.symm)]
  have hw' := hw.set_workM hproj
  rw [Csc.mulTransposeVec_over hzero (hw.size_workN.trans size_constant.symm)]
  refine .bind fun norm _ => .ite (.ok hw' false) (.ite (.ok hw' false) (.bind fun aty haty => ?_))
  have hsizeaty := (Csc.size_of_mulTransposeVec hp.wellFormed_A haty).2.trans hp.ncols_A
  exact .bind fun _ _ => .ok (hw'.set_workN hsizeaty) _

/-- **The dual test in place** is the test. -/
theorem inPlace_isDual (hzero : Scalar.eq (0 : α) 0 = true) (hp : p.Sound)
    (hw : w.Sized p.n p.m) (eq : Equilibration α) (deltaX : Array α) (eps : α) :
    InPlace p.n p.m (isDualIn w p eq deltaX eps) (isDual p eq deltaX eps) := by
  rw [isDualIn, isDual, Csc.mulSymVec_over hzero (hw.size_workN.trans size_constant.symm)]
  dsimp only
  rw [Csc.mulVec_over hzero (hw.size_workM.trans size_constant.symm)]
  refine .bind fun norm _ => .ite (.ok hw false) (.bind fun descent _ => .ite (.ok hw false)
    (.bind fun px hpx => ?_))
  have hsizepx := (Csc.size_of_mulSymVec hp.wellFormed_P hpx).2.trans hp.ncols_P
  have hw' := hw.set_workN hsizepx
  refine .bind fun bend _ => .ite (.ok hw' false) (.bind fun ax hax => .bind fun adx hadx => ?_)
  have hsizeax := (Csc.size_of_mulVec hp.wellFormed_A hax).2.trans hp.nrows_A
  have hsizeadx := (size_of_hadamard hadx).trans hsizeax
  exact .ok (hw'.set_workM hsizeadx) _

end Infeasibility

/-- **Nothing is read of what was left.** In all vectors of the lengths of the program, which
are those of the first ones, residuals of every point and both tests of every step end as in
fresh ones, and leave such vectors. -/
structure Workspace.Unread (p : Problem α) (eq : Equilibration α) : Prop where
  initial : (zero p.n p.m : Workspace α).Sized p.n p.m
  residuals : ∀ w : Workspace α, w.Sized p.n p.m → ∀ x z y,
    InPlace p.n p.m (Residuals.atPointIn w p eq x z y) (Residuals.atPoint p eq x z y)
  primal : ∀ w : Workspace α, w.Sized p.n p.m → ∀ deltaY eps,
    InPlace p.n p.m (Infeasibility.isPrimalIn w p eq deltaY eps)
      (Infeasibility.isPrimal p eq deltaY eps)
  dual : ∀ w : Workspace α, w.Sized p.n p.m → ∀ deltaX eps,
    InPlace p.n p.m (Infeasibility.isDualIn w p eq deltaX eps)
      (Infeasibility.isDual p eq deltaX eps)

theorem Workspace.unread (hzero : Scalar.eq (0 : α) 0 = true) (hp : p.Sound)
    (eq : Equilibration α) : Unread p eq where
  initial := sized_zero _ _
  residuals _ hw x z y := Residuals.inPlace_atPoint hzero hp hw eq x z y
  primal _ hw deltaY eps := Infeasibility.inPlace_isPrimal hzero hp hw eq deltaY eps
  dual _ hw deltaX eps := Infeasibility.inPlace_isDual hzero hp hw eq deltaX eps

end SplitQP
