import SplitQP.Call.Solve
import SplitQP.Proofs.Sparse.Reordered
import SplitQP.Proofs.Admm.Problem
import SplitQP.Proofs.Call.Alike
/-!
# The order of triplets

The triplets of a matrix may come in any order (`Coordinates.Reordered`).
The matrices built from them then differ in the order of entries within
columns and in nothing else (`Coordinates.Reordered.of_toCsc`), and the
solver accepts the same problem (`Problem.ofData_eq_of_reordered`). So a
call ends alike, its outputs included (`reordered_triplets_end_alike`):
for any arithmetic where no coordinate occurs twice, and in exact
arithmetic otherwise. Where a triplet lies outside its matrix, the order
decides which one is reported, and nothing else.
-/

namespace SplitQP

open Checked

/-! ## The solver -/

section Solver

variable {α : Type} [Scalar α] {P P' A A' : Csc α}

/-- **The same problem is accepted,** or the same error reported. -/
theorem Problem.ofData_eq_of_reordered (hP : P.Reordered P') (hA : A.Reordered A')
    (hfreeP : P.OrderFree) (hfreeA : A.OrderFree) (q l u : Array α) :
    ofData P' q A' l u = ofData P q A l u := by
  have hdimensions : checkDimensions P' q A' l u = checkDimensions P q A l u := by
    rw [checkDimensions, checkDimensions, hP.nrows_eq, hP.ncols_eq, hP.checkFormat_eq, hA.nrows_eq,
      hA.ncols_eq, hA.checkFormat_eq]
  have hvalues : checkValues P' q A' l u = checkValues P q A l u := by
    rw [checkValues, checkValues, hP.isFinite_eq, hA.isFinite_eq]
  rw [ofData, ofData, hdimensions, hvalues, hP.canonicalize_eq hfreeP, hA.canonicalize_eq hfreeA]

/-- **The same program,** with the entries of its matrices in another order. -/
structure Program.Reordered (p p' : Program α) : Prop where
  n_eq : p'.n = p.n
  m_eq : p'.m = p.m
  P_reordered : p.P.Reordered p'.P
  A_reordered : p.A.Reordered p'.A
  P_orderFree : p.P.OrderFree
  A_orderFree : p.A.OrderFree
  q_eq : p'.q = p.q
  l_eq : p'.l = p.l
  u_eq : p'.u = p.u

namespace Program.Reordered

variable {p p' : Program α} {b : Backend α} {settings : Settings α}

/-- **The solver is set up alike.** -/
theorem setup_eq (h : p.Reordered p') (narrator : Narrator α) (clock : Clock α)
    (order : EliminationOrder) (settings : Settings α) (hasLog : Bool) :
    (Backend.admm narrator clock order).setup p' settings hasLog =
      (Backend.admm narrator clock order).setup p settings hasLog := by
  have hsetup : Solver.setup p'.P p'.q.data p'.A p'.l.data p'.u.data settings order =
      Solver.setup p.P p.q.data p.A p.l.data p.u.data settings order := by
    rw [Solver.setup, Solver.setup, h.q_eq, h.l_eq, h.u_eq,
      Problem.ofData_eq_of_reordered h.P_reordered h.A_reordered h.P_orderFree h.A_orderFree]
  simp only [Backend.admm, hsetup]

/-- **A session goes alike** with a backend that is set up alike. -/
theorem run_eq (h : p.Reordered p')
    (hb : ∀ hasLog, b.setup p' settings hasLog = b.setup p settings hasLog)
    (refusal : String → Option String) (state : SessionState) (path : String)
    (primal dual : Array α) :
    Session.run b refusal state p' settings path primal dual =
      Session.run b refusal state p settings path primal dual := by
  have htags : p'.tags = p.tags := by rw [Program.tags, Program.tags, h.q_eq, h.l_eq, h.u_eq]
  have hunfit : Session.unfit? b p' primal dual = Session.unfit? b p primal dual := by
    rw [Session.unfit?, Session.unfit?, h.n_eq, h.m_eq]
  have hclose : Session.close p' = Session.close p := by
    funext hasLog state
    rw [Session.close, Session.close, htags]
  have hsolve : Session.solve b p' settings = Session.solve b p settings := by
    funext hasLog primal dual
    rw [Session.solve, Session.solve, hb]
  rw [Session.run, Session.run, hunfit, hclose, hsolve, htags]

end Program.Reordered

end Solver

/-! ## Coordinates -/

namespace Coordinates

variable {α : Type}

/-- The triplets in the order given. -/
def toList (c : Coordinates α) : List (Int × Int × α) :=
  c.rows.toList.zip (c.cols.toList.zip c.vals.toList)

/-- **The same triplets in another order.** -/
structure Reordered (c c' : Coordinates α) : Prop where
  size_rows_eq : c'.rows.size = c.rows.size
  size_cols_eq : c'.cols.size = c.cols.size
  size_vals_eq : c'.vals.size = c.vals.size
  perm : c.toList.Perm c'.toList

/-- **No coordinate occurs twice.** -/
def Distinct (c : Coordinates α) : Prop := (c.toList.map fun e => (e.1, e.2.1)).Nodup

instance (c : Coordinates α) : Decidable c.Distinct :=
  inferInstanceAs (Decidable (c.toList.map fun e => (e.1, e.2.1)).Nodup)

namespace Reordered

variable {c c' : Coordinates α}

theorem refl (c : Coordinates α) : c.Reordered c := ⟨rfl, rfl, rfl, .refl _⟩

theorem symm (h : c.Reordered c') : c'.Reordered c :=
  ⟨h.size_rows_eq.symm, h.size_cols_eq.symm, h.size_vals_eq.symm, h.perm.symm⟩

theorem distinct (h : c.Reordered c') (hc : c.Distinct) : c'.Distinct :=
  (h.perm.map _).nodup_iff.mp hc

/-- What is in the columns, in another order. -/
theorem distribute_perm (h : c.Reordered c') (ncols : ℕ) :
    List.Forall₂ List.Perm (Csc.distribute ncols (c.toList.map Triplets.numbered))
      (Csc.distribute ncols (c'.toList.map Triplets.numbered)) := by
  rw [Csc.distribute_eq, Csc.distribute_eq, List.forall₂_map_left_iff, List.forall₂_map_right_iff]
  refine List.forall₂_same.mpr fun j _ => ?_
  exact (((h.perm.map _).filter _).map _)

end Reordered

/-- No row occurs twice in a column. -/
theorem Distinct.nodup_bin {c : Coordinates α} (hc : c.Distinct) {nrows ncols : ℕ}
    (hin : ∀ e ∈ c.toList,
      Triplets.inRange e.1 nrows = true ∧ Triplets.inRange e.2.1 ncols = true) (j : ℕ) :
    ((Csc.bin (c.toList.map Triplets.numbered) j).map (·.1)).Nodup := by
  rw [Csc.bin, List.map_map, List.filter_map, List.map_map, List.Nodup, List.pairwise_map]
  refine ((List.pairwise_map.mp hc).filter _).imp_of_mem fun {e e'} he he' hne hrows => hne ?_
  -- two entries that meet as natural numbers meet as integers, since both are in range
  have hcol : e.2.1.toNat = j := of_decide_eq_true (List.mem_filter.mp he).2
  have hcol' : e'.2.1.toNat = j := of_decide_eq_true (List.mem_filter.mp he').2
  have hrows : e.1.toNat = e'.1.toNat := hrows
  have hrow := Triplets.inRange_eq_true_iff.mp (hin e (List.mem_filter.mp he).1).1
  have hrow' := Triplets.inRange_eq_true_iff.mp (hin e' (List.mem_filter.mp he').1).1
  have hinside := Triplets.inRange_eq_true_iff.mp (hin e (List.mem_filter.mp he).1).2
  have hinside' := Triplets.inRange_eq_true_iff.mp (hin e' (List.mem_filter.mp he').1).2
  exact Prod.ext (by omega) (by omega)

namespace Reordered

variable {c c' : Coordinates α} {matrix : String} {nrows ncols : ℕ}

/-- **Triplets in another order become the same matrix,** but for the order of entries
within columns. -/
theorem of_toFullCsc [Add α] (h : c.Reordered c') (hc : c.Distinct ∨ ExactAddition α) {A : Csc α}
    (hA : c.toFullCsc matrix nrows ncols = .ok A) :
    ∃ A', c'.toFullCsc matrix nrows ncols = .ok A' ∧ A.Reordered A' ∧ A.OrderFree := by
  obtain ⟨hrows, hcols, hfull⟩ := toFullCsc_eq_ok_iff.mp hA
  obtain ⟨hin, hncols, hnnz, rfl⟩ := Triplets.toCsc_eq_ok_iff.mp hfull
  have hfull' : Triplets.toCsc ⟨nrows, ncols, c'.rows, c'.cols, c'.vals⟩ =
      .ok (Csc.ofColumns nrows (Csc.distribute ncols (c'.toList.map Triplets.numbered))) :=
    Triplets.toCsc_eq_ok_iff.mpr ⟨fun e he => hin e (h.perm.mem_iff.mpr he), hncols,
      h.size_vals_eq.le.trans hnnz, rfl⟩
  refine ⟨_, toFullCsc_eq_ok_iff.mpr ⟨?_, ?_, hfull'⟩, ⟨(Triplets.built_of_toCsc hfull).1,
    (Triplets.built_of_toCsc hfull').1, rfl, ?_⟩, hc.imp_left fun hdistinct => ?_⟩
  · rw [h.size_rows_eq, hrows, h.size_vals_eq]
  · rw [h.size_cols_eq, hcols, h.size_vals_eq]
  · rw [Csc.cols_ofColumns, Csc.cols_ofColumns]
    exact h.distribute_perm ncols
  · rw [Csc.cols_ofColumns, Csc.distribute_eq]
    exact List.forall_mem_map.mpr fun j _ => hdistinct.nodup_bin hin j

/-- The same without small entries: as many are left out. -/
theorem of_toCsc [Scalar α] (h : c.Reordered c') (hc : c.Distinct ∨ ExactAddition α) {A : Csc α}
    {dropped : ℕ} (hA : c.toCsc matrix nrows ncols = .ok (.ok (A, dropped))) :
    ∃ A', c'.toCsc matrix nrows ncols = .ok (.ok (A', dropped)) ∧ A.Reordered A' ∧
      A.OrderFree := by
  rw [toCsc_eq] at hA
  cases hfull : c.toFullCsc matrix nrows ncols with
  | error e =>
    rw [hfull] at hA
    cases hA
  | ok B =>
    rw [hfull] at hA
    cases hA
    obtain ⟨B', hfull', hB, hfree⟩ := h.of_toFullCsc hc hfull
    refine ⟨_, ?_, hB.withoutSmall threshold, hfree.withoutSmall threshold⟩
    rw [toCsc_eq, hfull', ← hB.size_rowIndex_eq, ← (hB.withoutSmall threshold).size_rowIndex_eq]
    rfl

end Reordered

end Coordinates

/-! ## Calls -/

variable {α : Type} [RoundingScalar α]

/-- **A call that can be read can be read in any order** of its triplets. -/
theorem LoanedCall.Marshals.reordered {c : Call α} {P' A' : Coordinates α}
    (hP : c.quadratic.Reordered P') (hA : c.matrix.Reordered A')
    (hfreeP : c.quadratic.Distinct ∨ ExactAddition α)
    (hfreeA : c.matrix.Distinct ∨ ExactAddition α) {primal dual : Array α} {p : Program α}
    {pairs : List (Assignment α)} (h : (c.loaned primal dual).Marshals p pairs) :
    ∃ p', (({ c with quadratic := P', matrix := A' } : Call α).loaned primal dual).Marshals
      p' pairs ∧ p.Reordered p' := by
  obtain ⟨⟨hsizes, ⟨dropped, hPbuilt⟩, ⟨dropped', hAbuilt⟩, hq, hl, hu⟩, hpairs⟩ := h
  obtain ⟨Q, hQ, hQre, hQfree⟩ := hP.of_toCsc hfreeP hPbuilt
  obtain ⟨B, hB, hBre, hBfree⟩ := hA.of_toCsc hfreeA hAbuilt
  exact ⟨⟨p.n, p.m, Q, p.q, B, p.l, p.u⟩,
    ⟨⟨hsizes, ⟨dropped, hQ⟩, ⟨dropped', hB⟩, hq, hl, hu⟩, hpairs⟩,
    ⟨rfl, rfl, hQre, hBre, hQfree, hBfree, rfl, rfl, rfl⟩⟩

/-- **Calls that are read alike end alike,** with a backend that is set up alike. -/
theorem Call.solve_endsAlike {c c' : Call α} {b : Backend α} {primal dual : Array α}
    (hlog : c'.logPath = c.logPath)
    (hread : ∀ p pairs, (c.loaned primal dual).Marshals p pairs →
      ∃ p', (c'.loaned primal dual).Marshals p' pairs ∧ p.Reordered p')
    (hread' : ∀ p' pairs, (c'.loaned primal dual).Marshals p' pairs →
      ∃ p, (c.loaned primal dual).Marshals p pairs)
    (hb : ∀ p p' settings hasLog, p.Reordered p' →
      b.setup p' settings hasLog = b.setup p settings hasLog)
    (refusal : String → Option String) :
    (c.solve b refusal primal dual).EndsAlike (c'.solve b refusal primal dual) := by
  by_cases hwidths : b.widths = .expected
  · have hloaned : ((c.loaned primal dual).solve b refusal).EndsAlike
        ((c'.loaned primal dual).solve b refusal) := by
      refine LoanedCall.solve_endsAlike hread hread' (fun p p' h => ⟨h.n_eq, h.m_eq⟩)
        (fun p p' settings h => ?_) rfl rfl
      -- the path is all a session has of the call besides the program and the outputs
      have hpath : (c'.loaned primal dual).logPath = (c.loaned primal dual).logPath := hlog
      rw [hpath]
      exact h.run_eq (fun hasLog => hb p p' settings hasLog h) _ _ _ _ _
    exact ((c.solve_endsAlike_loaned hwidths _ _).symm.trans hloaned).trans
      (c'.solve_endsAlike_loaned hwidths _ _)
  · rw [solve_of_widths_ne hwidths, solve_of_widths_ne hwidths]
    exact .refl _

/-- **The order of triplets does not matter.** A call of the solver ends alike with the
triplets of both matrices in any other order: whatever the arithmetic where no coordinate
occurs twice within a matrix, and in exact arithmetic also where coordinates repeat. -/
theorem reordered_triplets_end_alike {α : Type} [RoundingScalar α] (narrator : Narrator α)
    (clock : Clock α) (order : EliminationOrder) (refusal : String → Option String) (c : Call α)
    {P' A' : Coordinates α} (primal dual : Array α) (hP : c.quadratic.Reordered P')
    (hA : c.matrix.Reordered A') (hfreeP : c.quadratic.Distinct ∨ ExactAddition α)
    (hfreeA : c.matrix.Distinct ∨ ExactAddition α) :
    (c.solve (.admm narrator clock order) refusal primal dual).EndsAlike
      (({ c with quadratic := P', matrix := A' } : Call α).solve (.admm narrator clock order)
        refusal primal dual) := by
  refine Call.solve_endsAlike ?_ (fun p pairs h => ?_) (fun p' pairs h => ?_)
    (fun p p' settings hasLog h => ?_) refusal
  · rfl
  · exact h.reordered hP hA hfreeP hfreeA
  · obtain ⟨p, hp, -⟩ := h.reordered hP.symm hA.symm (hfreeP.imp_left hP.distinct)
      (hfreeA.imp_left hA.distinct)
    exact ⟨p, hp⟩
  · exact h.setup_eq narrator clock order settings hasLog

/-! ### Calls with two variables -/

/-- The rationals, rounded with halves away from zero. -/
instance : RoundingScalar ℚ where
  nearest q := if 0 ≤ q then ⌊q + 1 / 2⌋ else ⌈q - 1 / 2⌉

namespace TwoVariables

/-- Two variables that sum to one, and an objective in these triplets. -/
def call {α : Type} [RoundingScalar α] (quadratic : Coordinates α) : Call α where
  n := 2
  m := 1
  objective := #[1, 1]
  quadratic := quadratic
  matrix := ⟨#[0, 0], #[0, 1], #[1, 1]⟩
  lower := #[1]
  upper := #[1]

/-- Nothing is said about a run. -/
def silent {α : Type} : Narrator α := ⟨fun _ => "", fun _ _ _ => .ok (#[], .empty)⟩

/-- The triplets by columns. -/
def byColumns : Coordinates Float := ⟨#[0, 0, 1], #[0, 1, 1], #[4, 1, 2]⟩

/-- The same with the entry off the diagonal first. -/
def crossFirst : Coordinates Float := ⟨#[0, 0, 1], #[1, 0, 1], #[1, 4, 2]⟩

/-- The entry off the diagonal in two parts. -/
def split : Coordinates ℚ := ⟨#[0, 0, 0, 1], #[0, 1, 1, 1], #[4, 1 / 4, 3 / 4, 2]⟩

/-- The same with the parts exchanged. -/
def exchanged : Coordinates ℚ := ⟨#[0, 0, 0, 1], #[0, 1, 1, 1], #[4, 3 / 4, 1 / 4, 2]⟩

theorem reordered_crossFirst : byColumns.Reordered crossFirst :=
  ⟨rfl, rfl, by decide, .swap _ _ _⟩

theorem reordered_exchanged : split.Reordered exchanged :=
  ⟨rfl, rfl, rfl, .cons _ (.swap _ _ _)⟩

end TwoVariables

/-- With distinct triplets the order does not matter to floating point numbers; with an entry
in two parts it does not matter to rational ones. -/
theorem reordered_triplets_end_alike_twoVariables :
    ((TwoVariables.call TwoVariables.byColumns).solve
        (.admm TwoVariables.silent ⟨0, fun _ => 0, 0⟩ .natural) (fun _ => none) #[0, 0]
        #[0]).EndsAlike
      ((TwoVariables.call TwoVariables.crossFirst).solve
        (.admm TwoVariables.silent ⟨0, fun _ => 0, 0⟩ .natural) (fun _ => none) #[0, 0] #[0]) ∧
    ((TwoVariables.call TwoVariables.split).solve
        (.admm TwoVariables.silent ⟨0, fun _ => 0, 0⟩ .natural) (fun _ => none) #[0, 0]
        #[0]).EndsAlike
      ((TwoVariables.call TwoVariables.exchanged).solve
        (.admm TwoVariables.silent ⟨0, fun _ => 0, 0⟩ .natural) (fun _ => none) #[0, 0] #[0]) :=
  ⟨reordered_triplets_end_alike _ _ _ _ (TwoVariables.call TwoVariables.byColumns) _ _
      TwoVariables.reordered_crossFirst (.refl _) (.inl (by decide)) (.inl (by decide)),
    reordered_triplets_end_alike _ _ _ _ (TwoVariables.call TwoVariables.split) _ _
      TwoVariables.reordered_exchanged (.refl _) (.inr .of_exactField) (.inr .of_exactField)⟩

end SplitQP
