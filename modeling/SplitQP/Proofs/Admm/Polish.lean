import SplitQP.Proofs.Sparse.Select
import SplitQP.Proofs.Admm.Residuals
import SplitQP.Proofs.Admm.Iterate
import SplitQP.Admm.Polish
/-!
# Polishing does not fault

Whatever the arithmetic, whichever rows are active and in whatever order
the system is eliminated: the system of the polished point is assembled,
factored or refused, and solved (`run_ensures`). What is measured at the
polished point are its own residuals.
-/

namespace SplitQP

open Checked SplitQP.Dense

namespace Polish

variable {α : Type} [Scalar α]

/-! ## Active rows -/

section Sides

variable {p : Problem α} {v : Iterate α}

theorem size_sides (hp : p.Sound) (hz : v.z.size = p.m) (hy : v.y.size = p.m) :
    (sides p v).size = p.m := by
  simp [sides, hp.size_l, hp.size_u, hz, hy]

/-- The bound that is met, if any. -/
def metBound : (α × α) × Side → Option α
  | (_, .none) => none
  | ((l, _), .lower) => some l
  | ((_, u), .upper) => some u

omit [Scalar α] in
theorem metBounds_eq (s : Array Side) :
    metBounds p s = ((p.l.zip p.u).zip s).filterMap metBound := by
  rw [metBounds]
  congr 1
  funext ⟨⟨l, u⟩, side⟩
  cases side <;> rfl

omit [Scalar α] in
theorem isSome_metBound (c : (α × α) × Side) : (metBound c).isSome = decide (c.2 ≠ .none) := by
  obtain ⟨⟨l, u⟩, side⟩ := c
  cases side <;> rfl

theorem size_isActive {s : Array Side} : (isActive s).size = s.size := by simp [isActive]

omit [Scalar α] in
/-- The active rows among the first are those that meet a bound. -/
theorem rank_isActive (hp : p.Sound) {s : Array Side} (hs : s.size = p.m) (i : ℕ) :
    Csc.rank (isActive s) i =
      (((p.l.zip p.u).zip s).toList.take i).countP fun c => (metBound c).isSome := by
  have hsnd : ((p.l.zip p.u).zip s).toList.map (·.2) = s.toList := by
    rw [Array.toList_zip, List.map_snd_zip]
    simp [hp.size_l, hp.size_u, hs]
  have htake : ((isActive s).extract 0 i).toList =
      (((p.l.zip p.u).zip s).toList.take i).map fun c => decide (c.2 ≠ .none) := by
    rw [Array.toList_extract, List.extract_eq_drop_take', List.drop_zero, isActive,
      Array.toList_map, ← hsnd, ← List.map_take, ← List.map_take, List.map_map]
    rfl
  rw [Csc.rank, ← Array.count_toList, htake, List.count, List.countP_map]
  congr 1
  funext c
  rw [isSome_metBound]
  simp

omit [Scalar α] in
/-- As many bounds are met as rows are active. -/
theorem size_metBounds (hp : p.Sound) {s : Array Side} (hs : s.size = p.m) :
    (metBounds p s).size = (isActive s).count true := by
  have hall : Csc.rank (isActive s) p.m = (isActive s).count true := by
    rw [Csc.rank, ← hs, ← size_isActive, Array.extract_size]
  have hlength : ((p.l.zip p.u).zip s).toList.length = p.m := by
    simp [hp.size_l, hp.size_u, hs]
  rw [← hall, rank_isActive hp hs, List.take_of_length_le hlength.le, metBounds_eq,
    ← Array.length_toList, Array.toList_filterMap, List.length_filterMap_eq_countP]

end Sides

theorem size_spread {active : Array Bool} {y : Array α} :
    (spread active y).size = active.size := by simp [spread]

/-- Each active row has the multiplier at its rank. -/
theorem getD_spread {active : Array Bool} {y : Array α} {i : ℕ} (hi : i < active.size) :
    (spread active y).getD i 0 =
      if active.getD i false = true then y.getD (Csc.rank active i) 0 else 0 := by
  rw [getD_of_lt 0 (by simpa [spread] using hi), getD_of_lt false hi]
  simp [spread]

/-! ## The system -/

/-- **The system of `k` active rows:** its parts fit, and it can be solved. -/
structure System (P B : Csc α) (f : Ldl α) (n k : ℕ) : Prop where
  wellFormed_P : P.WellFormed
  wellFormed_B : B.WellFormed
  nrows_P : P.nrows = n
  ncols_P : P.ncols = n
  nrows_B : B.nrows = k
  ncols_B : B.ncols = n
  solve_ensures : ∀ rhs : Array α, rhs.size = n + k →
    Ensures (f.solve rhs) fun x => x.size = n + k

section Refine

variable {P B : Csc α} {f : Ldl α} {n k : ℕ} {rhs sol : Array α}

/-- A refinement keeps the length. -/
theorem refineOnce_ensures (h : System P B f n k) (hrhs : rhs.size = n + k)
    (hsol : sol.size = n + k) :
    Ensures (refineOnce P B f rhs sol) fun x => x.size = n + k := by
  have hP := h.ncols_P
  have hPr := h.nrows_P
  have hB := h.ncols_B
  have hBr := h.nrows_B
  have htop : ∀ x : Array α, x.size = n + k → (x.extract 0 n).size = n := fun x hx => by
    simp [hx]
  have hbottom : ∀ x : Array α, x.size = n + k → (x.extract n x.size).size = k := fun x hx => by
    simp [hx]
  rw [refineOnce, hP]
  refine (Csc.mulSymVec_ensures_size h.wellFormed_P (by omega) _ _ ((htop sol hsol).trans hP.symm)
    ((htop rhs hrhs).trans hP.symm)).bind fun resX hresX => ?_
  refine (Csc.mulTransposeVec_ensures_size h.wellFormed_B _ _ ((hbottom sol hsol).trans hBr.symm)
    (by omega)).bind fun resX' hresX' => ?_
  refine (Csc.mulVec_ensures_size h.wellFormed_B _ _ ((htop sol hsol).trans hB.symm)
    ((hbottom rhs hrhs).trans hBr.symm)).bind fun resY hresY => ?_
  refine (h.solve_ensures _ (by rw [Array.size_append]; omega)).bind fun x hx => ?_
  rw [combine_eq_ok _ _ (hx.trans hsol.symm)]
  exact .ok (size_zipWith hx hsol)

theorem refine_ensures (h : System P B f n k) (hrhs : rhs.size = n + k) (count : ℕ)
    (hsol : sol.size = n + k) :
    Ensures (refine P B f rhs count sol) fun x => x.size = n + k := by
  induction count generalizing sol with
  | zero => exact .ok hsol
  | succ count ih =>
    rw [refine]
    exact (refineOnce_ensures h hrhs hsol).bind fun sol' hsol' => ih hsol'

end Refine

/-! ## A polished point -/

variable {p : Problem α} {eq : Equilibration α} {delta : α}

/-- Where the system of the active rows can be factored, it can be solved. -/
theorem factor_ensures {B : Csc α} (hp : p.Sound) (hB : B.WellFormed) (hBc : B.ncols = p.n)
    (order : EliminationOrder) {d : Array α} (hd : d.size = B.nrows) :
    Ensures (Ldl.factor (Kkt.matrix p.P B delta d.toList) order) fun r =>
      ∀ f, r = .ok f → System p.P B f p.n B.nrows := by
  have hd' : d.toList.length = B.nrows := by simpa using hd
  have hsq : p.P.nrows = B.ncols ∧ p.P.ncols = B.ncols := by
    rw [hBc]
    exact ⟨hp.nrows_P, hp.ncols_P⟩
  have hn : (Kkt.matrix p.P B delta d.toList).ncols = B.ncols + B.nrows :=
    Kkt.ncols_matrix hsq hd'
  refine (Ldl.factor_ensures_stored (Kkt.wellFormed_matrix hsq hd' hp.wellFormed_P) hn.symm
    (Kkt.isUpperTriangular_matrix hsq hd' hp.upper) (Kkt.hasDiagonal_matrix hsq hd')
    order).mono fun r hr f hf => ?_
  obtain ⟨inv, hinv, hstored⟩ := hr f hf
  refine ⟨hp.wellFormed_P, hB, hp.nrows_P, hp.ncols_P, rfl, hBc, fun rhs hrhs => ?_⟩
  have hsolve := Ldl.solve_ensures_size hinv (hstored.inRange hinv) (b := rhs) (by omega)
  rwa [hn, hBc] at hsolve

/-- What polishing promises: a point of the right lengths with its own
residuals, if any. -/
def Sound (p : Problem α) (eq : Equilibration α) : Outcome α → Prop
  | .notFactored _ => True
  | .point x z y r _ => x.size = p.n ∧ z.size = p.m ∧ y.size = p.m ∧
      Residuals.atPoint p eq x z y = .ok r

/-- **Polishing answers,** for every iterate, all settings and any order. -/
theorem run_ensures (hp : p.Sound) (he : eq.Fits p.n p.m) {v : Iterate α} (hv : v.Sized p.n p.m)
    (delta : α) (refinements : ℕ) (order : EliminationOrder) (pr dr : α) :
    Ensures (run p eq delta refinements order v pr dr) (Sound p eq) := by
  have hsides := size_sides hp hv.size_z hv.size_y
  rw [run]
  dsimp only
  generalize sides p v = s at hsides
  have hmask : (isActive s).size = p.A.nrows := by rw [size_isActive, hsides, hp.nrows_A]
  rw [Csc.selectRows_eq hp.wellFormed_A hmask, ok_bind]
  have hB := Csc.wellFormed_selected hp.wellFormed_A hmask
  have hBr : (p.A.selected (isActive s)).nrows = (isActive s).count true := rfl
  have hBc : (p.A.selected (isActive s)).ncols = p.n := Csc.ncols_selected.trans hp.ncols_A
  generalize p.A.selected (isActive s) = B at hB hBr hBc ⊢
  have hd : (constant ((isActive s).count true) delta).size = B.nrows := by
    rw [size_constant, hBr]
  rw [Kkt.assemble_eq_ok hp.wellFormed_P hB (by rw [hBc]; exact ⟨hp.nrows_P, hp.ncols_P⟩) hd,
    ok_bind]
  refine (factor_ensures hp hB hBc order hd).bind ?_
  rintro (e | f) hf
  · exact .ok trivial
  · have hsys := hf f rfl
    have hrhs : (p.q.map (- ·) ++ metBounds p s).size = p.n + B.nrows := by
      rw [Array.size_append, Array.size_map, hp.size_q, size_metBounds hp hsides, hBr]
    refine (hsys.solve_ensures _ hrhs).bind fun sol₀ hsol₀ => ?_
    refine (refine_ensures hsys hrhs refinements hsol₀).bind fun sol hsol => ?_
    have hx : (sol.extract 0 p.n).size = p.n := by simp [hsol]
    refine (Csc.mulVec_ensures_size hp.wellFormed_A _ _ (hx.trans hp.ncols_A.symm)
      (size_constant.trans hp.nrows_A.symm)).bind fun free hfree => ?_
    have hz := size_zipWith (f := Scalar.min)
      (size_zipWith (f := Scalar.max) (hfree.trans hp.nrows_A) hp.size_l) hp.size_u
    have hy : (spread (isActive s) (sol.extract p.n sol.size)).size = p.m := by
      rw [size_spread, size_isActive, hsides]
    obtain ⟨r, hr, -⟩ := Residuals.atPoint_ensures_size hp he hx hz hy
    rw [hr]
    exact .ok ⟨hx, hz, hy, hr⟩

end Polish

end SplitQP
