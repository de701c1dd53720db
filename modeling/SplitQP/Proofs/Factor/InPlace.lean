import SplitQP.Factor.InPlace
import SplitQP.Proofs.Factor.Reuse
import SplitQP.Proofs.Factor.Trimmed
/-!
# A factorisation has no memory

Factors are kept in the scratch they were computed in, which every
operation leaves as it happens to be. None of that is ever seen again:
what `Holds` of them is a statement on the matrix as it has been
overwritten, and operations of every kind keep it (`apply_ensures`). So
factoring again gives what factoring that matrix afresh gives, whatever
came before (`applyAll_forgets`).
-/

namespace SplitQP

open Checked SplitQP.Dense TreeState

variable {α : Type} [Scalar α]

/-- What solving reads. -/
theorem Ldl.solve_congr {f f' : Ldl α} (hlower : f'.lower = f.lower)
    (hdinv : f'.pivots.dinv = f.pivots.dinv) (hperm : f'.perm = f.perm) (b : Array α) :
    f'.solve b = f.solve b := by
  have hdim : f'.dim = f.dim := congrArg Csc.ncols hlower
  rw [Ldl.solve, Ldl.solve, hlower, hdinv, hperm, hdim]

namespace Factors

variable {A : Csc α} {f : Factors α}

/-! ## With and without scratch -/

/-- **Scratch is all that is added** to factoring. -/
theorem factor_eq (A : Csc α) (order : EliminationOrder) :
    Ldl.factor A order = do return (← factor A order).map ldl := by
  rw [Ldl.factor, factor]
  rcases Ldl.prepare A order with e | e | g
  · rfl
  · rfl
  · simp only [ok_bind]
    rw [Ldl.refactor, refactor]
    rcases g.refactorIn (.initial g.dim) with e | ⟨g', t, e | ⟨⟩⟩ <;> rfl

theorem factor_eq_ok {order : EliminationOrder} {r : Except LdlError (Ldl α)}
    (h : Ldl.factor A order = .ok r) : ∃ s, factor A order = .ok s ∧ s.map ldl = r := by
  rw [factor_eq] at h
  obtain ⟨s, hs, h⟩ := bind_eq_ok.mp h
  exact ⟨s, hs, Except.ok.inj h⟩

/-- What is cut off plays no part in factoring. -/
theorem factor_trimmed (h : A.Readable) (perm : Array ℕ) :
    factor A.trimmed (.given perm) = factor A (.given perm) := by
  rw [factor, factor, Ldl.prepare_trimmed h]

/-- Writes the entries for all steps, one after the other. -/
theorem gather_ensures {perm : Array ℕ} {b x : Array α} (hx : x.size = perm.size)
    (hperm : ∀ p ∈ perm, p < b.size) :
    perm.toList.zipIdx.foldlM (gather b) x = .ok (perm.map (b.getD · 0)) := by
  -- the entries of the steps before the current one are written
  have hloop := ensures_foldlM (l := perm.toList.zipIdx) (f := gather b) (s := x)
    (I := fun before x' => x'.size = perm.size ∧
      ∀ k < before.length, x'.getD k 0 = b.getD (perm.getD k 0) 0) ⟨hx, by simp⟩
    (by
      rintro before ⟨p, k⟩ after x' hsplit ⟨hsize, hdone⟩
      have hat : perm.toList.zipIdx[before.length]? = some (p, k) := by simp [hsplit]
      rw [List.getElem?_zipIdx, Option.map_eq_some_iff] at hat
      obtain ⟨q, hq, heq⟩ := hat
      obtain ⟨rfl, hk⟩ := Prod.mk.inj heq
      obtain rfl : before.length = k := by omega
      obtain ⟨hlt, rfl⟩ := List.getElem?_eq_some_iff.mp hq
      have hlt' : before.length < perm.size := by simpa using hlt
      rw [gather, read_eq_ok_getD 0 (hperm _ (by simp)), ok_bind, write_eq_ok (by omega)]
      refine .ok ⟨by simpa using hsize, fun i hi => ?_⟩
      rw [List.length_append, List.length_singleton] at hi
      rw [getD_set (by omega) (by omega)]
      split_ifs with hik
      · rw [← hik, getD_of_lt 0 hlt']
        simp
      · exact hdone i (by omega))
  obtain ⟨x', hok, hsize, hall⟩ := hloop
  rw [hok]
  congr 1
  refine ext_getD 0 hsize (by simp) fun k hk => ?_
  rw [hall k (by simpa using hk), getD_map 0 0 hk]

/-! ## What operations keep -/

/-- **Factors of `A` in scratch that fits,** whatever either holds: factoring may have
stopped, and entries may have been written since. -/
structure Holds (A : Csc α) (f : Factors α) : Prop where
  upper : A.IsUpperTriangular
  diagonal : A.HasDiagonal
  analyses : ∃ inv, Ldl.Analyses A inv f.ldl
  inRange : f.ldl.pivots.InRange f.ldl.dim
  fits : f.scratch.Fits f.ldl.dim

/-- How factoring again ends, against factoring afresh: with the same factors, or at the
same zero pivot. -/
def Agrees (r : Factors α × Except LdlError Unit) : Except LdlError (Factors α) → Prop
  | .ok g => r.2 = .ok () ∧ r.1.ldl = g.ldl
  | .error e => r.2 = .error e ∧ ∃ k, e = .zeroPivot k

namespace Operation

/-- The operation is one on `count` entries and `dim` unknowns. -/
def Valid (count dim : ℕ) : Operation α → Prop
  | .setEntries positions values =>
    positions.size = values.size ∧ ∀ p ∈ positions, p < count
  | .refactor => True
  | .solve b => b.size = dim

/-- The entries that it overwrites. -/
def changes : Operation α → List (ℕ × α)
  | .setEntries positions values => positions.toList.zip values.toList
  | .refactor => []
  | .solve _ => []

end Operation

namespace Holds

omit [Scalar α] in
theorem dim_eq (h : Holds A f) : f.ldl.dim = A.ncols := by
  obtain ⟨inv, hana⟩ := h.analyses
  exact hana.fits.size_d

omit [Scalar α] in
/-- **Overwriting** is overwriting the matrix. -/
theorem setEntries_ensures (h : Holds A f) {positions : Array ℕ} {values : Array α}
    (hsize : positions.size = values.size) (hpos : ∀ p ∈ positions, p < A.rowIndex.size) :
    Ensures (f.setEntries positions values) fun f' =>
      Holds (Ldl.overwrite A (positions.toList.zip values.toList)) f' ∧
        f'.ldl.perm = f.ldl.perm := by
  obtain ⟨inv, hana⟩ := h.analyses
  obtain ⟨g, hg, hana', hperm⟩ := Ldl.setEntries_ensures hana hsize hpos
  have hpivots := Ldl.pivots_of_setEntries hg
  have hsame := Ldl.samePattern_overwrite A (positions.toList.zip values.toList)
  have hdim : g.dim = f.ldl.dim := by rw [Ldl.dim, Ldl.dim, hpivots]
  rw [setEntries, hg]
  refine .ok ⟨⟨hsame.isUpperTriangular hana.wellFormed h.upper,
    hsame.hasDiagonal hana.wellFormed h.diagonal, ⟨inv, hana'⟩, ?_, ?_⟩, hperm⟩
  · rw [hdim, hpivots]
    exact h.inRange
  · rw [hdim]
    exact h.fits

/-- **Factoring again is factoring afresh.** -/
theorem refactor_ensures (h : Holds A f) : Ensures f.refactor fun r =>
    Holds A r.1 ∧ r.1.ldl.perm = f.ldl.perm ∧
      Ensures (factor A (.given f.ldl.perm)) (Agrees r) := by
  obtain ⟨inv, hana⟩ := h.analyses
  obtain ⟨⟨g, t, outcome⟩, hg, hrefactored, ht⟩ := Ldl.refactorIn_ensures hana h.fits
  have hrange := Ldl.refactorIn_inRange h.inRange hg
  have hana' := hrefactored.analyses
  have hdim : g.dim = f.ldl.dim := hana'.dim_eq.trans hana.dim_eq.symm
  have hperm : g.perm = f.ldl.perm := by
    obtain ⟨w, positive, hw⟩ := hrefactored.numbers
    dsimp only at hw
    rw [hw]
  dsimp only at ht hrange
  rw [← hdim] at ht hrange
  -- wherever it stopped, the analysis is that of `A`, and tells how factoring afresh ends
  obtain ⟨hstored, hzero⟩ := Ldl.factor_given_eq h.upper h.diagonal hana'
  rw [refactor, hg]
  refine .ok ⟨⟨h.upper, h.diagonal, ⟨inv, hana'⟩, hrange, ht⟩, hperm, ?_⟩
  rw [← hperm]
  rcases hrefactored.ended with ⟨hok, hs⟩ | ⟨k, herr, hk⟩
  · obtain ⟨s, hfresh, hmap⟩ := factor_eq_ok (hstored hs)
    refine .of_eq hfresh ?_
    cases s with
    | error e => cases hmap
    | ok g' => exact ⟨hok, (Except.ok.inj hmap).symm⟩
  · obtain ⟨s, hfresh, hmap⟩ := factor_eq_ok (hzero k hk)
    refine .of_eq hfresh ?_
    cases s with
    | error e =>
      obtain rfl := Except.error.inj hmap
      exact ⟨herr, k, rfl⟩
    | ok g' => cases hmap

/-- **Solving** answers what it answers without scratch, and leaves the factors alone. -/
theorem solve_ensures (h : Holds A f) {b : Array α} (hb : b.size = f.ldl.dim) :
    Ensures (f.solve b) fun r => f.ldl.solve b = .ok r.1 ∧ r.2.ldl = f.ldl ∧ Holds A r.2 := by
  obtain ⟨inv, hana⟩ := h.analyses
  have hdim := h.dim_eq
  have hsize : f.ldl.perm.size = f.ldl.dim := by rw [hana.inverts.size_perm, hdim]
  have hrow : f.scratch.row.size = f.ldl.perm.size := by rw [h.fits.size_row, hsize]
  have hgather := gather_ensures hrow fun p hp => by
    rw [hb, hdim]
    exact hana.perm_lt hp
  obtain ⟨x, hsolve, -⟩ := Ldl.solve_ensures_size hana (hdim ▸ h.inRange) (hb.trans hdim)
  have hsolution := hsolve
  rw [Ldl.solve, require_eq_ok hb, ok_bind, hana.mapM_read (hb.trans hdim), ok_bind] at hsolve
  obtain ⟨cols, hcols, hsolve⟩ := bind_eq_ok.mp hsolve
  obtain ⟨_, hbelow, hback⟩ := bind_eq_ok.mp hsolve
  -- once `b` is gathered, the sweeps are the same
  have htake : f.ldl.perm.take f.scratch.row.size = f.ldl.perm := by rw [hrow]; simp
  rw [solve, require_eq_ok hb, ok_bind]
  dsimp only at hback ⊢
  rw [htake, hgather, ok_bind, hcols, ok_bind, hbelow, ok_bind, hback, ok_bind]
  refine .ok ⟨hsolution, rfl, h.upper, h.diagonal, h.analyses, h.inRange, ?_⟩
  have hdinv := hana.fits.size_dinv.trans hdim.symm
  exact { h.fits with size_row := size_solvePermuted cols hdinv (by simpa using hsize) }

/-- **One operation** does to the factors what it does to the matrix. -/
theorem apply_ensures (h : Holds A f) {op : Operation α}
    (hop : op.Valid A.rowIndex.size A.ncols) : Ensures (f.apply op) fun f' =>
      Holds (Ldl.overwrite A op.changes) f' ∧ f'.ldl.perm = f.ldl.perm := by
  cases op with
  | setEntries positions values => exact h.setEntries_ensures hop.1 hop.2
  | refactor =>
    refine h.refactor_ensures.bind ?_
    rintro ⟨f', outcome⟩ ⟨hf', hperm, -⟩
    exact .ok ⟨hf', hperm⟩
  | solve b =>
    refine (h.solve_ensures (hop.trans h.dim_eq.symm)).bind ?_
    rintro ⟨x, f'⟩ ⟨-, hldl, hf'⟩
    exact .ok ⟨hf', by rw [hldl]⟩

/-- **And so do any number of them.** -/
theorem applyAll_ensures (h : Holds A f) {ops : List (Operation α)}
    (hops : ∀ op ∈ ops, op.Valid A.rowIndex.size A.ncols) : Ensures (f.applyAll ops) fun f' =>
      Holds (Ldl.overwrite A (ops.flatMap Operation.changes)) f' ∧
        f'.ldl.perm = f.ldl.perm := by
  induction ops generalizing A f with
  | nil => exact .ok ⟨h, rfl⟩
  | cons op ops ih =>
    rw [applyAll, List.foldlM_cons]
    refine (h.apply_ensures (hops op (by simp))).bind fun f' hf' => ?_
    have hsame := Ldl.samePattern_overwrite A op.changes
    have hrest := ih hf'.1 fun op' hop' => by
      rw [hsame.rowIndex_eq, hsame.ncols_eq]
      exact hops op' (by simp [hop'])
    refine hrest.mono fun f'' hf'' => ⟨?_, hf''.2.trans hf'.2⟩
    rw [List.flatMap_cons, Ldl.overwrite, List.foldl_append]
    exact hf''.1

end Holds

/-! ## From the matrix on -/

/-- **Whatever is factored was readable,** and is held without what its columns do not
need. -/
theorem holds_of_factor {order : EliminationOrder} (h : factor A order = .ok (.ok f)) :
    A.Readable ∧ Holds A.trimmed f := by
  obtain ⟨prepared, hprepare, h⟩ := bind_eq_ok.mp h
  cases prepared with
  | error e => cases h
  | ok g =>
    obtain ⟨⟨f', outcome⟩, hrefactor, h⟩ := bind_eq_ok.mp h
    cases outcome with
    | error e => cases h
    | ok _ =>
      cases h
      have hread := Ldl.readable_of_prepare hprepare
      have hwf := hread.wellFormed_trimmed
      obtain ⟨hpattern, perm, hanalyse⟩ := Ldl.analyse_of_prepare hprepare
      rw [← Ldl.checkPattern_trimmed hread] at hpattern
      rw [← Ldl.analyse_trimmed hread] at hanalyse
      obtain ⟨hsq, hupper, hdiagonal⟩ := Ldl.isTriangle_of_checkPattern hwf hpattern
      obtain ⟨_, inv, hg, -, hana⟩ :=
        (Ldl.analyse_ensures hwf hsq (Ldl.isOrder_of_analyse hanalyse)).of_eq_ok hanalyse
      cases hg
      obtain ⟨⟨g', t, outcome⟩, hin, hr⟩ := bind_eq_ok.mp hrefactor
      cases hr
      obtain ⟨hended, hfits⟩ :=
        (Ldl.refactorIn_ensures hana (Scratch.fits_initial _)).of_eq_ok hin
      have hana' := hended.analyses
      have hdim : g'.dim = A.trimmed.ncols := hana'.dim_eq
      rcases hended.ended with ⟨-, hstored⟩ | ⟨k, hk, -⟩
      · refine ⟨hread, hupper, hdiagonal, ⟨inv, hana'⟩, ?_, ?_⟩
        · rw [hdim]
          exact hstored.inRange hana'
        · rw [hdim, ← hana.dim_eq]
          exact hfits
      · cases hk

/-- Factors that operations lead to. -/
def Reached (f : Factors α) : Prop :=
  ∃ A order f₀ ops, factor A order = .ok (.ok f₀) ∧
    (∀ op ∈ ops, op.Valid (A.start A.ncols) A.ncols) ∧ f₀.applyAll ops = .ok f

theorem Reached.holds (h : Reached f) : ∃ A, Holds A f := by
  obtain ⟨A, order, f₀, ops, hf₀, hops, hf⟩ := h
  obtain ⟨hread, hholds⟩ := holds_of_factor hf₀
  have hcount := hread.size_rowIndex_trimmed
  exact ⟨_, ((hholds.applyAll_ensures (by rwa [hcount])).of_eq_ok hf).1⟩

/-- **Nothing is left** in `g` of what led to it but the matrix `A`, as it has been
overwritten, and the order. -/
structure Forgets (A : Csc α) (perm : Array ℕ) (g : Factors α) : Prop where
  /-- Factoring again ends as factoring afresh does. -/
  refactor : Ensures g.refactor fun r => Ensures (factor A (.given perm)) (Agrees r)
  /-- Solving leaves factors and entries alone, and reads `L`, the inverse pivots and the
  order only. -/
  solve : ∀ b, b.size = A.ncols → Ensures (g.solve b) fun r => r.2.ldl = g.ldl ∧
    ∀ g', Reached g' → g'.ldl.lower = g.ldl.lower → g'.ldl.pivots.dinv = g.ldl.pivots.dinv →
      g'.ldl.perm = g.ldl.perm → Ensures (g'.solve b) fun r' => r'.1 = r.1

theorem Holds.forgets (h : Holds A.trimmed f) (hread : A.Readable) :
    Forgets A f.ldl.perm f where
  refactor := h.refactor_ensures.mono fun r hr => factor_trimmed hread _ ▸ hr.2.2
  solve b hb := by
    have hdim : f.ldl.dim = A.ncols := h.dim_eq
    refine (h.solve_ensures (hb.trans hdim.symm)).mono ?_
    rintro r ⟨hr, hldl, -⟩
    refine ⟨hldl, fun g' hg' hlower hdinv hperm => ?_⟩
    -- both answer what factors without scratch answer
    obtain ⟨A', h'⟩ := hg'.holds
    have hdim' : g'.ldl.dim = f.ldl.dim := congrArg Csc.ncols hlower
    refine (h'.solve_ensures (by rw [hb, hdim', hdim])).mono ?_
    rintro r' ⟨hr', -, -⟩
    rw [Ldl.solve_congr hlower hdinv hperm, hr] at hr'
    exact (Except.ok.inj hr').symm

/-- **A factorisation has no memory.** Whatever is done to the factors of a matrix, every
operation answers, and they remain those of the matrix with all entries overwritten, in the
order found at first. -/
theorem applyAll_forgets {order : EliminationOrder} (hf : factor A order = .ok (.ok f))
    {ops : List (Operation α)} (hops : ∀ op ∈ ops, op.Valid (A.start A.ncols) A.ncols) :
    Ensures (f.applyAll ops)
      (Forgets (Ldl.overwrite A (ops.flatMap Operation.changes)) f.ldl.perm) := by
  obtain ⟨hread, hholds⟩ := holds_of_factor hf
  have hcount := hread.size_rowIndex_trimmed
  refine (hholds.applyAll_ensures (by rwa [hcount])).mono ?_
  rintro g ⟨hg, hperm⟩
  rw [← Ldl.trimmed_overwrite] at hg
  rw [← hperm]
  exact hg.forgets (Ldl.readable_overwrite hread _)

/-- The last pivot is overwritten by zero and, after a solution with what is left, by
another number, in two steps. -/
def detour : List (Operation ℚ) :=
  [.setEntries #[0] #[-1 / 2], .refactor, .solve #[1, 2], .setEntries #[0, 0] #[1, 5]]

theorem applyAll_forgets_saddle : ∃ f, factor Ldl.saddle (.given #[1, 0]) = .ok (.ok f) ∧
    (∀ op ∈ detour, op.Valid (Ldl.saddle.start Ldl.saddle.ncols) Ldl.saddle.ncols) ∧
    Ensures (f.applyAll detour)
      (Forgets (Ldl.overwrite Ldl.saddle (detour.flatMap Operation.changes)) f.ldl.perm) := by
  have hvalid : ∀ op ∈ detour,
      op.Valid (Ldl.saddle.start Ldl.saddle.ncols) Ldl.saddle.ncols := by
    simp [detour, Operation.Valid, Ldl.saddle, Csc.start]
  have hok : ((factor Ldl.saddle (.given #[1, 0])).toOption.bind Except.toOption).isSome := by
    decide +kernel
  rcases hfactor : factor Ldl.saddle (.given #[1, 0]) with e | e | f
  · rw [hfactor] at hok
    cases hok
  · rw [hfactor] at hok
    cases hok
  · exact ⟨f, rfl, hvalid, applyAll_forgets hfactor hvalid⟩

end Factors

end SplitQP
