import SplitQP.Proofs.Dense
import SplitQP.Proofs.Factor.Reuse
import SplitQP.Proofs.Admm.Kkt
/-!
# The factored KKT system

Whatever the arithmetic, the system holds the KKT matrix for the
reciprocal step sizes written to it last, and solving answers, also after
a factorisation that stopped at a zero pivot (`Tracks`). In exact
arithmetic the system of a convex program is factored at once
(`setup_ensures`), and again for any positive numbers
(`Factored.updateRhoInv_ensures`); and its factors give the one solution of
the two blocks of equations (`solve_ensures_solves`).
-/

namespace SplitQP

open Checked SplitQP.Dense

namespace KktSystem

open Kkt

/-! ## Whatever the arithmetic -/

section Generic

variable {α : Type} [Scalar α] {P A : Csc α} {shift : α} {rhoInv : Array α} {k : KktSystem α}

/-- **The system holds the KKT matrix for `rhoInv`,** whatever became of its
factors, and knows where the lower diagonal is stored. -/
structure Tracks (P A : Csc α) (shift : α) (rhoInv : Array α) (k : KktSystem α) : Prop where
  analyses : ∃ inv, Ldl.Analyses (matrix P A shift rhoInv.toList) inv k.factors
  inRange : k.factors.pivots.InRange (A.ncols + A.nrows)
  positions_eq : k.positions = lowerPositions P A shift rhoInv.toList

variable (hs : Shape P A) (hd : rhoInv.size = A.nrows)

include hs hd

/-- **Every order can be tried.** -/
theorem setup_ensures_tracks (order : EliminationOrder) :
    Ensures (setup P A shift rhoInv order) fun r => ∀ k, r = .ok k →
      Tracks P A shift rhoInv k ∧ Ldl.Stored k.factors := by
  have hd' : rhoInv.toList.length = A.nrows := by simpa using hd
  have hn : (matrix P A shift rhoInv.toList).ncols = A.ncols + A.nrows :=
    ncols_matrix hs.square hd'
  rw [setup, assemble_eq_ok hs.wellFormed_P hs.wellFormed_A hs.square hd, ok_bind]
  dsimp only
  refine (Ldl.factor_ensures_stored (wellFormed_matrix hs.square hd' hs.wellFormed_P) hn.symm
    (isUpperTriangular_matrix hs.square hd' hs.upper) (hasDiagonal_matrix hs.square hd')
    order).bind ?_
  rintro (e | f) hf
  · exact .ok fun k hk => by cases hk
  · obtain ⟨inv, hinv, hstored⟩ := hf f rfl
    dsimp only
    split
    · refine .ok fun k hk => ?_
      cases hk
      have hrange := hstored.inRange hinv
      rw [hn] at hrange
      exact ⟨⟨⟨inv, hinv⟩, hrange, rfl⟩, hstored⟩
    · exact .ok fun k hk => by cases hk

/-- **Solving answers,** also with factors left over from a failure. -/
theorem Tracks.solve_ensures (h : Tracks P A shift rhoInv k) {rhs : Array α}
    (hrhs : rhs.size = A.ncols + A.nrows) :
    Ensures (k.solve rhs) fun x => x.size = A.ncols + A.nrows := by
  obtain ⟨inv, hinv⟩ := h.analyses
  have hn : (matrix P A shift rhoInv.toList).ncols = A.ncols + A.nrows :=
    ncols_matrix hs.square (by simpa using hd)
  have hsolve := Ldl.solve_ensures_size hinv (by rw [hn]; exact h.inRange) (b := rhs)
    (by rw [hn, hrhs])
  rwa [hn] at hsolve

/-- **Other numbers below,** whether or not they can be factored. -/
theorem Tracks.updateRhoInv_ensures (h : Tracks P A shift rhoInv k) {rhoInv' : Array α}
    (hd' : rhoInv'.size = A.nrows) :
    Ensures (k.updateRhoInv rhoInv') fun r => Tracks P A shift rhoInv' r.1 ∧
      ((r.2 = .ok () ∧ Ldl.Stored r.1.factors) ∨
        ∃ j, r.2 = .error (.zeroPivot j) ∧ Ldl.FirstZero r.1.factors j) := by
  obtain ⟨inv, hinv⟩ := h.analyses
  have hl : rhoInv.toList.length = A.nrows := by simpa using hd
  have hl' : rhoInv'.toList.length = A.nrows := by simpa using hd'
  have hpositions : lowerPositions P A shift rhoInv'.toList =
      lowerPositions P A shift rhoInv.toList := by
    simp only [lowerPositions, start_matrix hl hl']
  have hover : Ldl.overwrite (matrix P A shift rhoInv.toList)
      ((lowerPositions P A shift rhoInv.toList).toList.zip (rhoInv'.toList.map (- ·))) =
        matrix P A shift rhoInv'.toList := overwrite_positions hs.square hl hl'
  have hsize : k.positions.size = (rhoInv'.map (- ·)).size := by
    rw [h.positions_eq]
    simp [lowerPositions, hd']
  have hlt : ∀ p ∈ k.positions, p < (matrix P A shift rhoInv.toList).rowIndex.size := by
    rw [h.positions_eq]
    exact lowerPositions_lt hs.square hl hs.wellFormed_P
  rw [updateRhoInv]
  obtain ⟨f, hset, hf, -⟩ := Ldl.setEntries_ensures hinv hsize hlt
  -- the entries are new, the factors still the old ones
  have hrange : f.pivots.InRange f.dim := by
    have hdim : f.dim = A.ncols + A.nrows := by
      rw [Ldl.dim, hf.fits.size_d, (Ldl.samePattern_overwrite _ _).ncols_eq,
        ncols_matrix hs.square hl]
    rw [hdim, Ldl.pivots_of_setEntries hset]
    exact h.inRange
  rw [hset, ok_bind]
  rw [h.positions_eq, Array.toList_map, hover] at hf
  obtain ⟨⟨f', outcome⟩, hrefactor, -, hf', hcase⟩ := Ldl.refactor_ensures hf
  have hrange' : f'.pivots.InRange f.dim := Ldl.refactor_inRange hrange hrefactor
  rw [Ldl.dim, hf.fits.size_d, ncols_matrix hs.square hl'] at hrange'
  exact .of_eq (by rw [hrefactor]; rfl)
    ⟨⟨⟨inv, hf'⟩, hrange', h.positions_eq.trans hpositions.symm⟩, hcase⟩

end Generic

/-! ## In exact arithmetic -/

variable {K : Type} [ExactField K] {P A : Csc K} {shift : K} {rhoInv : Array K} {k : KktSystem K}

/-- **The system is factored,** for the lower diagonal `-rhoInv`, and its
positions are known. -/
structure Factored (P A : Csc K) (shift : K) (rhoInv : Array K) (k : KktSystem K) : Prop where
  analyses : ∃ inv, Ldl.Analyses (matrix P A shift rhoInv.toList) inv k.factors
  stored : Ldl.Stored k.factors
  positions_eq : k.positions = lowerPositions P A shift rhoInv.toList

theorem Tracks.factored (h : Tracks P A shift rhoInv k) (hstored : Ldl.Stored k.factors) :
    Factored P A shift rhoInv k := ⟨h.analyses, hstored, h.positions_eq⟩

section Convex

variable (hc : IsConvex P A shift) (hd : rhoInv.size = A.nrows)

include hc hd

theorem Factored.tracks (h : Factored P A shift rhoInv k) : Tracks P A shift rhoInv k := by
  obtain ⟨inv, hinv⟩ := h.analyses
  have hrange := h.stored.inRange hinv
  rw [ncols_matrix hc.square (by simpa using hd)] at hrange
  exact ⟨⟨inv, hinv⟩, hrange, h.positions_eq⟩

/-- **As many positive pivots as variables.** -/
theorem Factored.positive_eq (h : Factored P A shift rhoInv k) (hpos : ∀ x ∈ rhoInv, 0 < x) :
    k.factors.positive = A.ncols := by
  obtain ⟨inv, hinv⟩ := h.analyses
  exact Ldl.positive_of_quasidefinite (ncols_matrix hc.square (by simpa using hd)) hinv h.stored
    (hc.quasidefinite hd hpos)

/-- No pivot is zero, whatever the order. -/
theorem not_firstZero {inv : Array ℕ} {f : Ldl K} (hpos : ∀ x ∈ rhoInv, 0 < x)
    (hf : Ldl.Analyses (matrix P A shift rhoInv.toList) inv f) {j : ℕ} : ¬ Ldl.FirstZero f j := by
  intro hzero
  have hlt := hzero.lt
  rw [hf.ncols_upper] at hlt
  have := @Ldl.pivot_ne_of_quasidefinite K _ _ inv f (fun i => if i < A.ncols then 1 else -1) hf
    (hc.quasidefinite hd hpos) j hlt
  rw [hzero.pivot_eq] at this
  exact Bool.noConfusion this

/-- **A convex program can be set up.** -/
theorem setup_ensures (hpos : ∀ x ∈ rhoInv, 0 < x) {order : EliminationOrder}
    (horder : order.Permutes K) :
    Ensures (setup P A shift rhoInv order) fun r => ∃ k, r = .ok k ∧
      Factored P A shift rhoInv k := by
  have hd' : rhoInv.toList.length = A.nrows := by simpa using hd
  have hwf : (matrix P A shift rhoInv.toList).WellFormed :=
    wellFormed_matrix hc.square hd' hc.wellFormed_P
  have hsq : (matrix P A shift rhoInv.toList).nrows = (matrix P A shift rhoInv.toList).ncols :=
    (ncols_matrix hc.square hd').symm
  obtain ⟨perm, hchoose, hperm⟩ := horder _ hwf hsq
  rw [setup, assemble_eq_ok hc.wellFormed_P hc.wellFormed_A hc.square hd, ok_bind]
  dsimp only
  refine (Ldl.factor_ensures hwf hsq (isUpperTriangular_matrix hc.square hd' hc.upper)
    (hasDiagonal_matrix hc.square hd') hchoose hperm).bind ?_
  rintro r ⟨f, inv, -, hf, ⟨rfl, hstored⟩ | ⟨j, -, hzero⟩⟩
  · have hfac : Factored P A shift rhoInv ⟨f, lowerPositions P A shift rhoInv.toList⟩ :=
      ⟨⟨inv, hf⟩, hstored, rfl⟩
    dsimp only
    rw [if_pos ((hfac.positive_eq hc hd hpos).trans hc.square.2.symm)]
    exact .ok ⟨_, rfl, hfac⟩
  · exact absurd hzero (not_firstZero hc hd hpos hf)

/-- **Other positive step sizes** meet no zero pivot. -/
theorem Factored.updateRhoInv_ensures (h : Factored P A shift rhoInv k) {rhoInv' : Array K}
    (hd' : rhoInv'.size = A.nrows) (hpos : ∀ x ∈ rhoInv', 0 < x) :
    Ensures (k.updateRhoInv rhoInv') fun r => r.2 = .ok () ∧
      Factored P A shift rhoInv' r.1 := by
  refine ((h.tracks hc hd).updateRhoInv_ensures hc.shape hd hd').mono ?_
  rintro ⟨k', outcome⟩ ⟨htracks, ⟨hok, hstored⟩ | ⟨j, -, hzero⟩⟩
  · exact ⟨hok, htracks.factored hstored⟩
  · obtain ⟨inv, hinv⟩ := htracks.analyses
    exact absurd hzero (not_firstZero hc hd' hpos hinv)

end Convex

/-! ## The two blocks of equations -/

/-- **`(x, w)` solves the KKT system** with the right hand side `(a, b)`. -/
structure Solves (n m : ℕ) (P A : Csc K) (shift : K) (d x w a b : Array K) : Prop where
  top : (P.toSymMatrix n).mulVec (vec n x) + shift • vec n x +
    (A.toMatrix m n).transpose.mulVec (vec m w) = vec n a
  bottom : (A.toMatrix m n).mulVec (vec n x) - vec m d * vec m w = vec m b

section Blocks

variable {d : Array K} (hsq : P.nrows = A.ncols ∧ P.ncols = A.ncols) (hd : d.size = A.nrows)
  (hP : P.WellFormed)

include hsq hd hP

theorem solves_iff {x w a b : Array K} (hx : x.size = A.ncols) (hw : w.size = A.nrows)
    (ha : a.size = A.ncols) (hb : b.size = A.nrows) :
    Solves A.ncols A.nrows P A shift d x w a b ↔
      ((matrix P A shift d.toList).toSymMatrix (A.ncols + A.nrows)).mulVec
        (vec (A.ncols + A.nrows) (x ++ w)) = vec (A.ncols + A.nrows) (a ++ b) := by
  have hd' : d.toList.length = A.nrows := by simpa using hd
  have hxs : (fun j => vec (A.ncols + A.nrows) (x ++ w) (Fin.castAdd A.nrows j)) =
      vec A.ncols x := funext fun j => vec_append_castAdd hx j
  have hws : (fun k => vec (A.ncols + A.nrows) (x ++ w) (Fin.natAdd A.ncols k)) =
      vec A.nrows w := funext fun k => vec_append_natAdd hx hw k
  have htop : ∀ j, ((matrix P A shift d.toList).toSymMatrix (A.ncols + A.nrows)).mulVec
      (vec (A.ncols + A.nrows) (x ++ w)) (Fin.castAdd A.nrows j) =
        ((P.toSymMatrix A.ncols).mulVec (vec A.ncols x) + shift • vec A.ncols x +
          (A.toMatrix A.nrows A.ncols).transpose.mulVec (vec A.nrows w)) j := by
    intro j
    rw [mulVec_leading hsq hd' hP, hxs, hws, vec_append_castAdd hx]
    rfl
  have hbottom : ∀ k, ((matrix P A shift d.toList).toSymMatrix (A.ncols + A.nrows)).mulVec
      (vec (A.ncols + A.nrows) (x ++ w)) (Fin.natAdd A.ncols k) =
        ((A.toMatrix A.nrows A.ncols).mulVec (vec A.ncols x) -
          vec A.nrows d * vec A.nrows w) k := by
    intro k
    rw [mulVec_trailing hsq hd' hP, hxs, vec_append_natAdd hx hw, Pi.sub_apply, Pi.mul_apply]
    congr 2
    simp [vec]
  constructor
  · rintro ⟨h₁, h₂⟩
    funext i
    refine Fin.addCases (fun j => ?_) (fun k => ?_) i
    · rw [htop, h₁, vec_append_castAdd ha]
    · rw [hbottom, h₂, vec_append_natAdd ha hb]
  · intro h
    refine ⟨funext fun j => ?_, funext fun k => ?_⟩
    · rw [← htop, h, vec_append_castAdd ha]
    · rw [← hbottom, h, vec_append_natAdd ha hb]

/-- **Stored factors solve both blocks,** and there is no other solution. -/
theorem solve_ensures_solves {inv : Array ℕ} {f : Ldl K}
    (hf : Ldl.Analyses (matrix P A shift d.toList) inv f) (hs : Ldl.Stored f) {a b : Array K}
    (ha : a.size = A.ncols) (hb : b.size = A.nrows) :
    Ensures (f.solve (a ++ b)) fun sol => ∃ x w, x.size = A.ncols ∧ w.size = A.nrows ∧
      sol = x ++ w ∧ Solves A.ncols A.nrows P A shift d x w a b ∧
      ∀ x' w', x'.size = A.ncols → w'.size = A.nrows →
        Solves A.ncols A.nrows P A shift d x' w' a b → x' = x ∧ w' = w := by
  have hn : (matrix P A shift d.toList).ncols = A.ncols + A.nrows :=
    ncols_matrix hsq (by simpa using hd)
  have hsolve := hs.solve_ensures hf (b := a ++ b) (by rw [hn, Array.size_append, ha, hb])
  rw [hn] at hsolve
  refine hsolve.mono ?_
  rintro sol ⟨hsize, hsol⟩
  obtain ⟨x, w, hx, hw, rfl⟩ := exists_append_of_size hsize
  refine ⟨x, w, hx, hw, rfl, ?_, fun x' w' hx' hw' h => ?_⟩
  · rw [solves_iff hsq hd hP hx hw ha hb]
    exact (hsol _).mpr rfl
  · rw [solves_iff hsq hd hP hx' hw' ha hb, hsol] at h
    have heq := eq_of_vec (by rw [Array.size_append, hx', hw']) hsize h
    exact Array.append_inj heq (hx'.trans hx.symm)

end Blocks

end KktSystem

end SplitQP
