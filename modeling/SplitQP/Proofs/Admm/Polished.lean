import SplitQP.Proofs.Admm.Optimality
/-!
# Polished points

Polishing takes the bounds that the iterate seems to meet for equations and
runs the method of multipliers on them, from zero: every refinement is a
step of it, with `delta` as the step size (`Polish.Proximal`,
`Polish.refined_of_run`). Rows that meet no bound get the multiplier zero.
The other multipliers are whatever the equations make them. Nothing asks
for their signs, since a polished point is taken over for its residuals
alone (`Solver.polished_of_run`); so a bound that was met by mistake leaves
a multiplier that points the wrong way (`Solver.misled_shelf`).
-/

namespace SplitQP

open Checked SplitQP.Dense

variable {K : Type} [ExactField K]

namespace Polish

variable {p : Problem K} {delta : K} {s : Array Side}

/-! ## The method of multipliers -/

/-- **One step of the method of multipliers** for the bounds met, from `(x₀, y₀)` to
`(x, y)`. Between two points that agree, the bounds are met exactly and the
gradients cancel. -/
structure Proximal (p : Problem K) (delta : K) (s : Array Side) (x₀ : Fin p.n → K)
    (y₀ : Fin p.m → K) (x : Fin p.n → K) (y : Fin p.m → K) : Prop where
  stationary : (p.P.toSymMatrix p.n).mulVec x + vec p.n p.q +
    (p.A.toMatrix p.m p.n).transpose.mulVec y = delta • (x₀ - x)
  lower : ∀ i : Fin p.m, s.getD i .none = .lower →
    (p.A.toMatrix p.m p.n).mulVec x i - p.l.getD i 0 = delta * (y i - y₀ i)
  upper : ∀ i : Fin p.m, s.getD i .none = .upper →
    (p.A.toMatrix p.m p.n).mulVec x i - p.u.getD i 0 = delta * (y i - y₀ i)
  free : ∀ i : Fin p.m, s.getD i .none = .none → y i = 0

/-- A number of steps, from zero. -/
inductive Refined (p : Problem K) (delta : K) (s : Array Side) :
    ℕ → (Fin p.n → K) → (Fin p.m → K) → Prop
  | start : Refined p delta s 0 0 0
  | step {count : ℕ} {x₀ x : Fin p.n → K} {y₀ y : Fin p.m → K} :
      Refined p delta s count x₀ y₀ → Proximal p delta s x₀ y₀ x y →
      Refined p delta s (count + 1) x y

theorem Refined.free {count : ℕ} {x : Fin p.n → K} {y : Fin p.m → K}
    (h : Refined p delta s count x y) {i : Fin p.m} (hi : s.getD i .none = .none) : y i = 0 := by
  cases h with
  | start => rfl
  | step _ hlast => exact hlast.free i hi

/-! ## Rows and ranks -/

theorem getD_isActive {i : ℕ} (hi : i < s.size) :
    (isActive s).getD i false = true ↔ s.getD i .none ≠ .none := by
  rw [isActive, getD_map .none false hi, decide_eq_true_iff]

/-- **A bound that is met** is found at the rank of its row. -/
theorem getD_metBounds (hp : p.Sound) (hs : s.size = p.m) {i : ℕ} (hi : i < p.m) {b : K}
    (hb : metBound ((p.l.getD i 0, p.u.getD i 0), s.getD i .none) = some b) :
    (metBounds p s).getD (Csc.rank (isActive s) i) 0 = b := by
  have hlength : ((p.l.zip p.u).zip s).toList.length = p.m := by
    simp [hp.size_l, hp.size_u, hs]
  have hil : i < ((p.l.zip p.u).zip s).toList.length := by omega
  have hrow : metBound ((p.l.zip p.u).zip s).toList[i] = some b := by
    rw [getD_of_lt _ (by rw [hp.size_l]; exact hi), getD_of_lt _ (by rw [hp.size_u]; exact hi),
      getD_of_lt _ (by omega)] at hb
    simpa using hb
  -- what is met before the row fills the places before its own
  have hmap : ((p.l.zip p.u).zip s).toList.filterMap metBound =
      (((p.l.zip p.u).zip s).toList.take i).filterMap metBound ++
        b :: (((p.l.zip p.u).zip s).toList.drop (i + 1)).filterMap metBound := by
    conv_lhs => rw [← List.take_append_drop i ((p.l.zip p.u).zip s).toList]
    rw [List.drop_eq_getElem_cons hil, List.filterMap_append, List.filterMap_cons_some hrow]
  rw [metBounds_eq, rank_isActive hp hs, ← List.length_filterMap_eq_countP,
    Array.getD_eq_getD_getElem?, ← Array.getElem?_toList, Array.toList_filterMap, hmap,
    List.getElem?_append_right le_rfl, Nat.sub_self]
  rfl

/-! ## The system of the active rows -/

/-- The factors of the regularised system of the active rows. -/
structure Factored (p : Problem K) (delta : K) (s : Array Side) (f : Ldl K) : Prop where
  analyses : ∃ inv, Ldl.Analyses (Kkt.matrix p.P (p.A.selected (isActive s)) delta
    (constant ((isActive s).count true) delta).toList) inv f
  stored : Ldl.Stored f

variable (hp : p.Sound) (hs : s.size = p.m)

include hp hs

omit [ExactField K] in
theorem size_mask : (isActive s).size = p.A.nrows := by rw [size_isActive, hs, hp.nrows_A]

omit hp [ExactField K] in
theorem rank_active_lt {i : Fin p.m} (hi : s.getD i .none ≠ .none) :
    Csc.rank (isActive s) i < (isActive s).count true := by
  have hin : (i : ℕ) < s.size := by rw [hs]; exact i.isLt
  exact Csc.rank_lt (by rwa [size_isActive]) ((getD_isActive hin).mpr hi)

/-- An active row times a vector. -/
theorem mulVec_active {i : Fin p.m} (hi : s.getD i .none ≠ .none) (x : Fin p.n → K) :
    ((p.A.selected (isActive s)).toMatrix ((isActive s).count true) p.n).mulVec x
      ⟨Csc.rank (isActive s) i, rank_active_lt hs hi⟩ = (p.A.toMatrix p.m p.n).mulVec x i := by
  have hin : (i : ℕ) < s.size := by rw [hs]; exact i.isLt
  exact Csc.mulVec_selected hp.wellFormed_A (size_mask hp hs) (by rwa [size_isActive])
    ((getD_isActive hin).mpr hi) x

/-- The active rows pull as all rows do, where the others have no multiplier. -/
theorem mulTransposeVec_active (w : Array K) :
    ((p.A.selected (isActive s)).toMatrix ((isActive s).count true) p.n).transpose.mulVec
      (vec ((isActive s).count true) w) =
        (p.A.toMatrix p.m p.n).transpose.mulVec (vec p.m (spread (isActive s) w)) :=
  Csc.mulTransposeVec_selected hp.wellFormed_A hp.nrows_A hp.ncols_A (size_mask hp hs)
    fun _ hi => getD_spread hi

/-- **Solving for the active rows,** with multipliers at their ranks. -/
theorem Factored.solve_ensures {f : Ldl K} (hf : Factored p delta s f) {a b : Array K}
    (ha : a.size = p.n) (hb : b.size = (isActive s).count true) :
    Ensures (f.solve (a ++ b)) fun sol => ∃ x w, x.size = p.n ∧
      w.size = (isActive s).count true ∧ sol = x ++ w ∧
      (p.P.toSymMatrix p.n).mulVec (vec p.n x) + delta • vec p.n x +
        (p.A.toMatrix p.m p.n).transpose.mulVec (vec p.m (spread (isActive s) w)) = vec p.n a ∧
      ∀ i : Fin p.m, s.getD i .none ≠ .none →
        (p.A.toMatrix p.m p.n).mulVec (vec p.n x) i -
          delta * (spread (isActive s) w).getD i 0 = b.getD (Csc.rank (isActive s) i) 0 := by
  obtain ⟨inv, hinv⟩ := hf.analyses
  have hcols : (p.A.selected (isActive s)).ncols = p.n := Csc.ncols_selected.trans hp.ncols_A
  have hsolve := KktSystem.solve_ensures_solves (P := p.P) (A := p.A.selected (isActive s))
    (by rw [hcols]; exact ⟨hp.nrows_P, hp.ncols_P⟩) size_constant hp.wellFormed_P hinv hf.stored
    (ha.trans hcols.symm) hb
  rw [hcols, Csc.nrows_selected] at hsolve
  refine hsolve.mono ?_
  rintro sol ⟨x, w, hx, hw, rfl, heqs, -⟩
  refine ⟨x, w, hx, hw, rfl, ?_, fun i hi => ?_⟩
  · rw [← mulTransposeVec_active hp hs]
    exact heqs.top
  · have hin : (i : ℕ) < s.size := by rw [hs]; exact i.isLt
    have hrow := congrFun heqs.bottom ⟨Csc.rank (isActive s) i, rank_active_lt hs hi⟩
    rw [Pi.sub_apply, mulVec_active hp hs hi, Pi.mul_apply, vec, vec,
      getD_constant (rank_active_lt hs hi)] at hrow
    rw [getD_spread (by rwa [size_isActive]), if_pos ((getD_isActive hin).mpr hi)]
    exact hrow

omit hs in
theorem vec_neg_q : vec p.n (p.q.map (- ·)) = -vec p.n p.q := vec_map hp.size_q

omit hp in
/-- Multipliers are spread one by one. -/
theorem vec_spread_add {w w' : Array K} (hw : w.size = (isActive s).count true)
    (hw' : w'.size = (isActive s).count true) :
    vec p.m (spread (isActive s) (w.zipWith (fun u v => 1 * u + 1 * v) w')) =
      vec p.m (spread (isActive s) w) + vec p.m (spread (isActive s) w') := by
  funext i
  have hi : (i : ℕ) < (isActive s).size := by rw [size_isActive, hs]; exact i.isLt
  rw [Pi.add_apply, vec, vec, vec, getD_spread hi, getD_spread hi, getD_spread hi]
  by_cases hmark : (isActive s).getD i false = true
  · rw [if_pos hmark, if_pos hmark, if_pos hmark,
      getD_zipWith_of_lt hw hw' (Csc.rank_lt hi hmark), one_mul, one_mul]
  · rw [if_neg hmark, if_neg hmark, if_neg hmark, add_zero]

/-- The equations of one step, with multipliers at their ranks. -/
theorem proximal_of_equations {x₀ : Fin p.n → K} {y₀ : Fin p.m → K} {x w : Array K}
    (hstationary : (p.P.toSymMatrix p.n).mulVec (vec p.n x) + vec p.n p.q +
      (p.A.toMatrix p.m p.n).transpose.mulVec (vec p.m (spread (isActive s) w)) =
        delta • (x₀ - vec p.n x))
    (hrows : ∀ i : Fin p.m, s.getD i .none ≠ .none →
      (p.A.toMatrix p.m p.n).mulVec (vec p.n x) i -
        (metBounds p s).getD (Csc.rank (isActive s) i) 0 =
          delta * ((spread (isActive s) w).getD i 0 - y₀ i)) :
    Proximal p delta s x₀ y₀ (vec p.n x) (vec p.m (spread (isActive s) w)) where
  stationary := hstationary
  lower i hi := by
    have hrow := hrows i (by rw [hi]; decide)
    rwa [getD_metBounds hp hs i.isLt (b := p.l.getD i 0) (by rw [hi]; rfl)] at hrow
  upper i hi := by
    have hrow := hrows i (by rw [hi]; decide)
    rwa [getD_metBounds hp hs i.isLt (b := p.u.getD i 0) (by rw [hi]; rfl)] at hrow
  free i hi := by
    have hin : (i : ℕ) < s.size := by rw [hs]; exact i.isLt
    rw [vec, getD_spread (by rw [size_isActive]; exact hin), if_neg]
    rw [getD_isActive hin]
    exact not_not.mpr hi

/-- **The first solution** is a step from zero. -/
theorem Factored.solve_ensures_refined {f : Ldl K} (hf : Factored p delta s f) :
    Ensures (f.solve (p.q.map (- ·) ++ metBounds p s)) fun sol => ∃ x w, x.size = p.n ∧
      w.size = (isActive s).count true ∧ sol = x ++ w ∧
      Refined p delta s 1 (vec p.n x) (vec p.m (spread (isActive s) w)) := by
  refine (hf.solve_ensures hp hs (by rw [Array.size_map, hp.size_q])
    (size_metBounds hp hs)).mono ?_
  rintro sol ⟨x, w, hx, hw, rfl, htop, hrows⟩
  refine ⟨x, w, hx, hw, rfl, .step .start (proximal_of_equations hp hs ?_ fun i hi => ?_)⟩
  · rw [vec_neg_q hp] at htop
    rw [zero_sub, smul_neg]
    linear_combination htop
  · rw [Pi.zero_apply, sub_zero]
    linear_combination hrows i hi

/-- **A refinement is a step.** -/
theorem Factored.refineOnce_ensures_refined {f : Ldl K} (hf : Factored p delta s f) {count : ℕ}
    {x₀ w₀ : Array K} (hx₀ : x₀.size = p.n) (hw₀ : w₀.size = (isActive s).count true)
    (h : Refined p delta s count (vec p.n x₀) (vec p.m (spread (isActive s) w₀))) :
    Ensures (refineOnce p.P (p.A.selected (isActive s)) f (p.q.map (- ·) ++ metBounds p s)
        (x₀ ++ w₀)) fun sol => ∃ x w, x.size = p.n ∧ w.size = (isActive s).count true ∧
      sol = x ++ w ∧
      Refined p delta s (count + 1) (vec p.n x) (vec p.m (spread (isActive s) w)) := by
  have hB := Csc.wellFormed_selected hp.wellFormed_A (size_mask hp hs)
  have hcols : (p.A.selected (isActive s)).ncols = p.n := Csc.ncols_selected.trans hp.ncols_A
  have hq : (p.q.map (- ·)).size = p.n := by rw [Array.size_map, hp.size_q]
  rw [refineOnce, hp.ncols_P, extract_append_top hx₀, extract_append_bottom hx₀,
    extract_append_top hq, extract_append_bottom hq]
  refine (Csc.vec_mulSymVec hp.wellFormed_P hp.nrows_P hp.ncols_P _ _ hx₀ hq).bind ?_
  rintro gx ⟨hgx, hvecgx⟩
  refine (Csc.vec_mulTransposeVec hB Csc.nrows_selected hcols _ _ hw₀ hgx).bind ?_
  rintro resX ⟨hresX, hvecX⟩
  refine (Csc.vec_mulVec hB Csc.nrows_selected hcols _ _ hx₀ (size_metBounds hp hs)).bind ?_
  rintro resY ⟨hresY, hvecY⟩
  refine (hf.solve_ensures hp hs hresX hresY).bind ?_
  rintro sol ⟨dx, dw, hdx, hdw, rfl, htop, hrows⟩
  rw [combine_eq_ok _ _ (by rw [Array.size_append, Array.size_append, hdx, hx₀, hdw, hw₀]),
    Array.zipWith_append (hdx.trans hx₀.symm)]
  have hx := size_zipWith (f := fun u v => 1 * u + 1 * v) hdx hx₀
  have hw := size_zipWith (f := fun u v => 1 * u + 1 * v) hdw hw₀
  have hvecx : vec p.n (dx.zipWith (fun u v => 1 * u + 1 * v) x₀) = vec p.n dx + vec p.n x₀ := by
    rw [vec_zipWith hdx hx₀]
    simp only [one_mul]
    rfl
  have hvecw := vec_spread_add hs hdw hw₀
  -- the correction solves for what the last point left over, so the sum is the next point
  refine .ok ⟨_, _, hx, hw, rfl, .step h (proximal_of_equations hp hs ?_ fun i hi => ?_)⟩
  · rw [hvecX, hvecgx, vec_neg_q hp, mulTransposeVec_active hp hs] at htop
    simp only [neg_one_smul, one_smul] at htop
    rw [hvecx, hvecw, Matrix.mulVec_add, Matrix.mulVec_add, sub_add_cancel_right, smul_neg]
    linear_combination htop
  · have hres := congrFun hvecY ⟨Csc.rank (isActive s) i, rank_active_lt hs hi⟩
    rw [Pi.add_apply, Pi.smul_apply, Pi.smul_apply, mulVec_active hp hs hi, neg_one_smul, one_smul,
      vec, vec] at hres
    have hsum := congrFun hvecw i
    rw [Pi.add_apply, vec, vec] at hsum
    rw [hvecx, Matrix.mulVec_add, Pi.add_apply, hsum]
    linear_combination hrows i hi + hres

/-- **As many steps more as refinements.** -/
theorem Factored.refine_ensures_refined {f : Ldl K} (hf : Factored p delta s f) (refinements : ℕ)
    {count : ℕ} {x₀ w₀ : Array K} (hx₀ : x₀.size = p.n)
    (hw₀ : w₀.size = (isActive s).count true)
    (h : Refined p delta s count (vec p.n x₀) (vec p.m (spread (isActive s) w₀))) :
    Ensures (refine p.P (p.A.selected (isActive s)) f (p.q.map (- ·) ++ metBounds p s) refinements
        (x₀ ++ w₀)) fun sol => ∃ x w, x.size = p.n ∧ w.size = (isActive s).count true ∧
      sol = x ++ w ∧
      Refined p delta s (count + refinements) (vec p.n x)
        (vec p.m (spread (isActive s) w)) := by
  induction refinements generalizing count x₀ w₀ with
  | zero => exact .ok ⟨x₀, w₀, hx₀, hw₀, rfl, h⟩
  | succ refinements ih =>
    rw [refine]
    refine (hf.refineOnce_ensures_refined hp hs hx₀ hw₀ h).bind ?_
    rintro sol ⟨x, w, hx, hw, rfl, hnext⟩
    have hrest := ih hx hw hnext
    rwa [Nat.add_right_comm, Nat.add_assoc] at hrest

end Polish

/-! ## Polishing -/

namespace Polish

variable {p : Problem K} {eq : Equilibration K} {delta : K} {v : Iterate K}

/-- The side of a row. -/
theorem getD_sides (hp : p.Sound) (hv : v.Sized p.n p.m) {i : ℕ} (hi : i < p.m) :
    (sides p v).getD i .none =
      sideOf (p.l.getD i 0) (p.u.getD i 0) (v.z.getD i 0) (v.y.getD i 0) := by
  have hsize : i < (sides p v).size := by
    rw [size_sides hp hv.size_z hv.size_y]
    exact hi
  rw [getD_of_lt _ hsize, getD_of_lt 0 (by rw [hp.size_l]; exact hi),
    getD_of_lt 0 (by rw [hp.size_u]; exact hi), getD_of_lt 0 (by rw [hv.size_z]; exact hi),
    getD_of_lt 0 (by rw [hv.size_y]; exact hi)]
  simp [sides]

/-- **The guess follows the signs** of a complementary iterate. -/
theorem sign_of_side (hp : p.Sound) (hv : v.Sized p.n p.m) (hc : v.Complementary p) {i : ℕ}
    (hi : i < p.m) : ((sides p v).getD i .none = .lower → v.y.getD i 0 < 0) ∧
      ((sides p v).getD i .none = .upper → 0 < v.y.getD i 0) := by
  have hge := hc.ge i hi
  have hle := hc.le i hi
  rw [getD_sides hp hv hi, sideOf]
  refine ⟨fun h => ?_, fun h => ?_⟩
  · split_ifs at h with hlower
    rw [ExactField.lt_iff] at hlower
    linarith
  · split_ifs at h with hlower hupper
    rw [ExactField.lt_iff] at hupper
    linarith

/-- **A polished point** is one step from zero and one for each refinement, and its
residuals alone say whether it is an improvement. -/
theorem refined_of_run (hp : p.Sound) (hv : v.Sized p.n p.m) {refinements : ℕ}
    {order : EliminationOrder} {pr dr : K} {x z y : Array K} {r : Residuals K} {improved : Bool}
    (h : run p eq delta refinements order v pr dr = .ok (.point x z y r improved)) :
    Refined p delta (sides p v) (refinements + 1) (vec p.n x) (vec p.m y) ∧
      improved = improves r.primRes r.dualRes pr dr := by
  have hs := size_sides hp hv.size_z hv.size_y
  have hmask := size_mask hp hs
  have hB := Csc.wellFormed_selected hp.wellFormed_A hmask
  have hcols : (p.A.selected (isActive (sides p v))).ncols = p.n :=
    Csc.ncols_selected.trans hp.ncols_A
  have hsq : p.P.nrows = (p.A.selected (isActive (sides p v))).ncols ∧
      p.P.ncols = (p.A.selected (isActive (sides p v))).ncols := by
    rw [hcols]
    exact ⟨hp.nrows_P, hp.ncols_P⟩
  have hd : (constant ((isActive (sides p v)).count true) delta).size =
      (p.A.selected (isActive (sides p v))).nrows := size_constant
  rw [run] at h
  dsimp only at h
  rw [Csc.selectRows_eq hp.wellFormed_A hmask, ok_bind,
    Kkt.assemble_eq_ok hp.wellFormed_P hB hsq hd, ok_bind] at h
  obtain ⟨factored, hfactor, h⟩ := bind_eq_ok.mp h
  cases factored with
  | error e => cases h
  | ok f =>
    rw [← Array.length_toList] at hd
    obtain ⟨inv, hinv, hstored⟩ := (Ldl.factor_ensures_stored
      (Kkt.wellFormed_matrix hsq hd hp.wellFormed_P) (Kkt.ncols_matrix hsq hd).symm
      (Kkt.isUpperTriangular_matrix hsq hd hp.upper) (Kkt.hasDiagonal_matrix hsq hd)
      order).of_eq_ok hfactor f rfl
    have hf : Factored p delta (sides p v) f := ⟨⟨inv, hinv⟩, hstored⟩
    dsimp only at h
    obtain ⟨sol₀, hsol₀, h⟩ := bind_eq_ok.mp h
    obtain ⟨x₀, w₀, hx₀, hw₀, rfl, hfirst⟩ := (hf.solve_ensures_refined hp hs).of_eq_ok hsol₀
    obtain ⟨sol, hsol, h⟩ := bind_eq_ok.mp h
    obtain ⟨x', w, hx', hw, rfl, hlast⟩ :=
      (hf.refine_ensures_refined hp hs refinements hx₀ hw₀ hfirst).of_eq_ok hsol
    obtain ⟨free, -, h⟩ := bind_eq_ok.mp h
    obtain ⟨r', -, h⟩ := bind_eq_ok.mp h
    rw [extract_append_top hx', extract_append_bottom hx'] at h
    cases h
    rw [Nat.add_comm] at hlast
    exact ⟨hlast, rfl⟩

end Polish

namespace Solver

variable {p₀ : Problem K} {shift : K} {s s' : Solver K}

/-- **What is left of `s` once it is polished:** the point is one of the method of
multipliers for the bounds that the iterate of `s` seems to meet, and has the better
residuals. -/
structure Polished (s s' : Solver K) : Prop where
  refined : Polish.Refined s.problem s.settings.delta (Polish.sides s.problem s.iterate)
    (s.settings.polishRefineIter + 1) (vec s.problem.n s'.iterate.x)
    (vec s.problem.m s'.iterate.y)
  improves : Polish.improves s'.info.primRes s'.info.dualRes s.info.primRes s.info.dualRes = true

/-- **Polishing that succeeds** takes over the point it found and its residuals. -/
theorem point_of_polish {events : List (Event K)} (h : s.polish = .ok (s', events))
    (hsuccess : s'.info.polish = .successful) : ∃ r,
      Polish.run s.problem s.equilibration s.settings.delta s.settings.polishRefineIter s.order
        s.iterate s.info.primRes s.info.dualRes =
          .ok (.point s'.iterate.x s'.iterate.z s'.iterate.y r true) ∧
      s'.info.primRes = r.primRes ∧ s'.info.dualRes = r.dualRes := by
  obtain ⟨outcome, hrun, h⟩ := bind_eq_ok.mp h
  cases outcome with
  | notFactored e =>
    cases h
    cases hsuccess
  | point x z y r improved =>
    dsimp only at h
    cases improved with
    | false =>
      cases h
      cases hsuccess
    | true =>
      rw [if_pos rfl] at h
      obtain ⟨x', hx, h⟩ := bind_eq_ok.mp h
      obtain ⟨z', hz, h⟩ := bind_eq_ok.mp h
      obtain ⟨y', hy, h⟩ := bind_eq_ok.mp h
      obtain ⟨_, -, hx⟩ := bind_eq_ok.mp hx
      obtain ⟨_, -, hz⟩ := bind_eq_ok.mp hz
      obtain ⟨_, -, hy⟩ := bind_eq_ok.mp hy
      cases hx
      cases hz
      cases hy
      cases h
      exact ⟨r, hrun, rfl, rfl⟩

theorem polished_of_polish (hp : s.problem.Sound) (hv : s.iterate.Sized s.problem.n s.problem.m)
    {events : List (Event K)} (h : s.polish = .ok (s', events))
    (hsuccess : s'.info.polish = .successful) : Polished s s' := by
  obtain ⟨r, hrun, hprim, hdual⟩ := point_of_polish h hsuccess
  obtain ⟨hrefined, himproves⟩ := Polish.refined_of_run hp hv hrun
  refine ⟨hrefined, ?_⟩
  rw [hprim, hdual]
  exact himproves.symm

/-- A solver as its run begins. -/
abbrev restarted (s : Solver K) : Solver K := { s with info := s.info.restart }

/-- Which bounds the iterate seems to meet, row by row. -/
abbrev guess (s : Solver K) : Array Polish.Side := Polish.sides s.problem s.iterate

/-- A run that ends with a polished point polishes what its search found. -/
theorem polished_of_successful (h : Ready p₀ shift s) {clock : Clock K} {stage : Stage K Unit}
    (hrun : s.run clock = .ok stage) (hwanted : s.settings.polish = true)
    (hsolved : stage.solver.info.status = .solved)
    (hsuccess : stage.solver.info.polish = .successful) :
    ∃ found, s.restarted.search clock = .ok found ∧
      found.solver.info.status = .solved ∧ Ready p₀ shift found.solver ∧
      Polished found.solver stage.solver := by
  have hok : stage.result = .ok () := (run_ensures h clock).of_eq_ok hrun
  rw [run] at hrun
  obtain ⟨found, hfound, hrun⟩ := bind_eq_ok.mp hrun
  obtain ⟨⟨s₂, polishing⟩, hpolish, hrun⟩ := bind_eq_ok.mp hrun
  obtain ⟨s₃, hconclude, hrun⟩ := bind_eq_ok.mp hrun
  obtain ⟨sol, -, rfl⟩ := conclude_eq_ok hconclude
  cases hrun
  dsimp only at hok hsolved hsuccess hpolish
  obtain ⟨hset, hsteps⟩ := steps_of_search hfound
  have hready := ready_of_steps h hsteps
  rw [polishIfWanted] at hpolish
  split at hpolish
  · rename_i hwants
    have hstatus : found.solver.info.status = .solved := by
      simp only [wantsPolish, Bool.and_eq_true, decide_eq_true_eq] at hwants
      exact hwants.2
    obtain ⟨hrefined, himproves⟩ :=
      polished_of_polish hready.sound hready.sized hpolish hsuccess
    exact ⟨found, hfound, hstatus, hready, hrefined, himproves⟩
  · rename_i hwants
    cases hpolish
    refine absurd ?_ hwants
    rw [wantsPolish, hok, hset, hwanted, hsolved]
    rfl

section Setup

variable {P A : Csc K} {q l u : Array K} {settings : Settings K} {order : EliminationOrder}

/-- **Polished multipliers are those of the bounds guessed.** A run of a convex
program that ends solved, with a polished point, has found an iterate whose `y` points
out of the bounds, and guessed from its signs which bounds are met. The polished point
comes from the method of multipliers for these bounds, is taken over for its residuals,
and is reported; rows guessed to be free get the multiplier zero. -/
theorem polished_of_run {s₀ : Solver K} {clock : Clock K} {stage : Stage K Unit}
    (hsetup : setup P q A l u settings order = .ok (.ok s₀))
    (hpsd : IsSemidefinite (P.toSymMatrix q.size)) (hbounds : Problem.BoundsMeet l u)
    (horder : order.Permutes K) (hmoves : Moves s₀ s) (hset : s.settings.validate = .ok ())
    (hwanted : s.settings.polish = true) (hrun : s.run clock = .ok stage)
    (hsolved : stage.solver.info.status = .solved)
    (hsuccess : stage.solver.info.polish = .successful) :
    ∃ found, s.restarted.search clock = .ok found ∧
      found.solver.iterate.Complementary found.solver.problem ∧
      (∀ i < l.size,
        ((guess found.solver).getD i .none = .lower → found.solver.iterate.y.getD i 0 < 0) ∧
        ((guess found.solver).getD i .none = .upper → 0 < found.solver.iterate.y.getD i 0)) ∧
      Polished found.solver stage.solver ∧ Reported q.size l.size stage.solver ∧
      ∀ i < l.size, (guess found.solver).getD i .none = .none →
        stage.solver.solution.y.getD i 0 = 0 := by
  obtain ⟨p₀, hacc, hready₀⟩ := ready_of_setup hsetup hpsd horder
  have hready := ready_of_moves hready₀ hmoves
  have hlu := uncrossed_of_accepted hacc hbounds
  have hran := ran_of_run hrun
  have hfinal := ready_of_moves hready hran.moves
  obtain ⟨found, hfound, hstatus, hreadyFound, hpolished⟩ :=
    polished_of_successful hready hrun hwanted hsolved hsuccess
  have hm : found.solver.problem.m = l.size :=
    hreadyFound.equilibrated.scales.m_eq.trans hacc.m_eq
  have hcomplementary : found.solver.iterate.Complementary found.solver.problem := by
    rcases search_eq_ok (carried_restart s) hfound with ⟨-, hcrossed⟩ | hsearched
    · rw [hcrossed] at hstatus
      cases hstatus
    -- some iteration came last, and nothing after it touches the iterate
    · have hrestart := ready_of_steps hready (steps_noted s s.residuals s.info.restart s.solution)
      obtain ⟨s₁, s₂, iter, hbefore, hadv, hafter⟩ :=
        hsearched.advanced (pos_of_validate hset).2
      have h₁ := ready_of_steps hrestart hbefore
      exact complementary_of_steps (ready_of_step h₁ (.advanced hadv)) hlu
        (complementary_of_advance h₁ hlu hadv) hafter
  have hsolution : stage.solver.info.status.hasSolution := by
    rw [hsolved]
    rfl
  have hreported := reported_of_ran hacc hfinal.equilibrated hran hsolution
  refine ⟨found, hfound, hcomplementary, fun i hi => ?_, hpolished, hreported, fun i hi hfree => ?_⟩
  · rw [← hm] at hi
    exact Polish.sign_of_side hreadyFound.sound hreadyFound.sized hcomplementary hi
  · have hzero := hpolished.refined.free (i := ⟨i, by rw [hm]; exact hi⟩) hfree
    have hy := congrFun hreported.y_eq ⟨i, hi⟩
    rw [vec, Equilibration.dual] at hy
    rw [vec] at hzero
    rw [hy, hzero, mul_zero, zero_div]

end Setup

end Solver

/-! ## A shelf that is not touched -/

namespace Shelf

/-- `½·x² - x` is minimised. -/
def P : Csc ℚ := ⟨1, 1, #[0, 1], #[0], #[1]⟩

def q : Array ℚ := #[-1]

def A : Csc ℚ := ⟨1, 1, #[0, 1], #[0], #[1]⟩

/-- Below the minimum, which is at one. -/
def l : Array ℚ := #[1 / 2]

def u : Array ℚ := #[2]

/-- One iteration is close enough. -/
def settings : Settings ℚ := { Settings.default with
  rho := 1
  sigma := 1
  alpha := 1
  epsAbs := 1
  polish := true
  scaling := 0
  adaptiveRho := false
  checkTermination := 1 }

theorem isSemidefinite : IsSemidefinite (P.toSymMatrix 1) :=
  isSemidefinite_fin_one (by decide +kernel)

theorem boundsMeet : Problem.BoundsMeet l u := by
  intro i hi
  obtain rfl : i = 0 := Nat.lt_one_iff.mp hi
  decide +kernel

end Shelf

namespace Solver

/-- The first iterate lies below the shelf, which is guessed to be met; polishing puts
`x` on it. -/
theorem Shelf.polishes : ∃ s₀ found stage,
    setup Shelf.P Shelf.q Shelf.A Shelf.l Shelf.u Shelf.settings .natural = .ok (.ok s₀) ∧
      s₀.settings.validate = .ok () ∧ s₀.settings.polish = true ∧
      s₀.restarted.search .still = .ok found ∧ s₀.run .still = .ok stage ∧
      stage.solver.info.status = .solved ∧ stage.solver.info.polish = .successful ∧
      guess found.solver = #[.lower] ∧ 0 < stage.solver.solution.y.getD 0 0 := by
  have hfirst : firstRun Shelf.P Shelf.q Shelf.A Shelf.l Shelf.u Shelf.settings .natural .still
      (fun s₀ stage => decide (s₀.settings.validate = .ok () ∧ s₀.settings.polish = true ∧
        stage.solver.info.status = .solved ∧ stage.solver.info.polish = .successful ∧
        (s₀.restarted.search .still).toOption.map (fun found => guess found.solver) =
          some #[.lower] ∧
        0 < stage.solver.solution.y.getD 0 0)) = true := by
    decide +kernel
  obtain ⟨s₀, stage, hsetup, hrun, htest⟩ := exists_of_firstRun hfirst
  obtain ⟨hset, hwanted, hsolved, hsuccess, hguess, hy⟩ := of_decide_eq_true htest
  generalize hsearch : s₀.restarted.search Clock.still = search at hguess
  cases search with
  | error e => cases hguess
  | ok found =>
    exact ⟨s₀, found, stage, hsetup, hset, hwanted, hsearch, hrun, hsolved, hsuccess,
      Option.some.inj hguess, hy⟩

theorem polished_of_run_shelf : ∃ s₀ stage,
    setup Shelf.P Shelf.q Shelf.A Shelf.l Shelf.u Shelf.settings .natural = .ok (.ok s₀) ∧
      s₀.run .still = .ok stage ∧ stage.solver.info.polish = .successful ∧
      ∃ found, s₀.restarted.search .still = .ok found ∧ Polished found.solver stage.solver ∧
        Reported 1 1 stage.solver := by
  obtain ⟨s₀, _, stage, hsetup, hset, hwanted, -, hrun, hsolved, hsuccess, -⟩ := Shelf.polishes
  obtain ⟨found, hfound, -, -, hpolished, hreported, -⟩ := polished_of_run hsetup
    Shelf.isSemidefinite Shelf.boundsMeet permutes_natural .refl hset hwanted hrun hsolved hsuccess
  exact ⟨s₀, stage, hsetup, hrun, hsuccess, found, hfound, hpolished, hreported⟩

/-- **A polished multiplier can point the wrong way.** Held on the shelf from below, `x`
would have a negative multiplier; the one reported is positive, and the minimum is above
the shelf. -/
theorem misled_shelf : ∃ s₀ found stage, IsSemidefinite (Shelf.P.toSymMatrix 1) ∧
    Problem.BoundsMeet Shelf.l Shelf.u ∧
    setup Shelf.P Shelf.q Shelf.A Shelf.l Shelf.u Shelf.settings .natural = .ok (.ok s₀) ∧
    s₀.settings.polish = true ∧ s₀.restarted.search .still = .ok found ∧
    s₀.run .still = .ok stage ∧ stage.solver.info.status = .solved ∧
    stage.solver.info.polish = .successful ∧ guess found.solver = #[.lower] ∧
    ¬ stage.solver.solution.y.getD 0 0 ≤ 0 := by
  obtain ⟨s₀, found, stage, hsetup, -, hwanted, hfound, hrun, hsolved, hsuccess, hguess, hy⟩ :=
    Shelf.polishes
  exact ⟨s₀, found, stage, Shelf.isSemidefinite, Shelf.boundsMeet, hsetup, hwanted, hfound, hrun,
    hsolved, hsuccess, hguess, not_le.mpr hy⟩

end Solver

end SplitQP
