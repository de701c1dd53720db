import SplitQP.Proofs.Admm.Conclusive
import SplitQP.Proofs.Admm.Runs
import SplitQP.Proofs.Call.Outputs
/-!
# The solver as a backend

What the solver of this library comes to as a backend is what setting it up
and running it come to (`admm_setup_ending`, `admm_solve_eq_ok`). Its
solutions have the sizes of the program (`sized_admm`), and it has one
exactly where the status is one of four (`admm_solution_iff`).
-/

namespace SplitQP

open Checked

namespace Backend

variable {α : Type} [Scalar α] {narrator : Narrator α} {clock : Clock α}
  {order : EliminationOrder} {p : Program α} {settings : Settings α} {hasLog : Bool}

/-- Setting up the backend is setting up the solver. -/
theorem admm_setup_ending : ((admm narrator clock order).setup p settings hasLog).ending =
    (Solver.setup p.P p.q.data p.A p.l.data p.u.data settings order).map
      (Except.mapError SetupError.exitCode) := by
  simp only [admm]
  cases Solver.setup p.P p.q.data p.A p.l.data p.u.data settings order with
  | error f => rfl
  | ok r =>
    cases r with
    | error e => rfl
    | ok s => rfl

/-- **Solving in the backend is running the solver.** -/
theorem admm_solve_eq_ok {s s' : Solver α} {exit : Int}
    (h : ((admm narrator clock order).solve s).ending = .ok (s', exit)) :
    ∃ stage, s.run clock = .ok stage ∧ s' = stage.solver ∧
      (exit = 0 ∧ stage.result = .ok () ∨
        ∃ e, exit = SolveError.exitCode e ∧ stage.result = .error e) := by
  obtain ⟨⟨t, events, result⟩, hrun, h⟩ := bind_eq_ok.mp ((Course.ending_bind _ _).symm.trans h)
  obtain ⟨told, -, h⟩ := bind_eq_ok.mp ((Course.ending_bind _ _).symm.trans h)
  refine ⟨_, hrun, ?_⟩
  cases result with
  | ok _ =>
    cases h
    exact ⟨rfl, .inl ⟨rfl, rfl⟩⟩
  | error e =>
    cases h
    exact ⟨rfl, .inr ⟨e, rfl, rfl⟩⟩

/-- A workspace of the backend is a solver that was set up. -/
theorem admm_setup_eq_ok {s : Solver α}
    (h : ((admm narrator clock order).setup p settings hasLog).ending = .ok (.ok s)) :
    Solver.setup p.P p.q.data p.A p.l.data p.u.data settings order = .ok (.ok s) := by
  rw [admm_setup_ending] at h
  cases hsetup : Solver.setup p.P p.q.data p.A p.l.data p.u.data settings order with
  | error f =>
    rw [hsetup] at h
    cases h
  | ok r =>
    rw [hsetup] at h
    cases r with
    | error e => cases h
    | ok s' =>
      cases h
      rfl

/-- **Solutions have the sizes of the program,** whatever the arithmetic. -/
theorem sized_admm (hn : p.A.ncols = p.n) (hm : p.A.nrows = p.m) :
    (admm narrator clock order).Sized p settings hasLog := by
  intro x y hxy
  obtain ⟨s, s', hsetup, hsolve, hsolution⟩ := solution?_eq_some_iff.mp hxy
  obtain ⟨hstarts, hsn, hsm⟩ := Solver.sizes_of_setup (admm_setup_eq_ok hsetup)
  obtain ⟨stage, hrun, rfl, -⟩ := admm_solve_eq_ok hsolve
  have hsized := hstarts.fits.sized_solution hrun
  have hreported : (if stage.solver.solution.status.hasSolution then
      some (stage.solver.solution.x, stage.solver.solution.y) else none) = some (x, y) := hsolution
  split_ifs at hreported
  cases hreported
  exact ⟨hsized.size_x.trans (hsn.trans hn), hsized.size_y.trans (hsm.trans hm)⟩

/-- **There is a solution** exactly where the status is one of four. -/
theorem admm_solution_iff {s : Solver α}
    {s' : (admm narrator clock order).Workspace} {exit : Int}
    (hsolve : ((admm narrator clock order).solve s).ending = .ok (s', exit)) :
    exit = 0 ∧ ((admm narrator clock order).solution s').isSome ↔
      (if exit = 0 then (admm narrator clock order).status s' else exit) ∈ [1, 2, -2, -6] := by
  obtain ⟨stage, hrun, rfl, ⟨rfl, hok⟩ | ⟨e, rfl, -⟩⟩ := admm_solve_eq_ok hsolve
  · change 0 = 0 ∧ (if stage.solver.solution.status.hasSolution then
      some (stage.solver.solution.x, stage.solver.solution.y) else none).isSome ↔
        stage.solver.solution.status.code ∈ [1, 2, -2, -6]
    rw [← SolverStatus.hasSolution_iff_mem (Solver.conclusive_of_run hrun hok)]
    cases stage.solver.solution.status.hasSolution with
    | true => exact iff_of_true ⟨rfl, rfl⟩ rfl
    | false => exact iff_of_false (fun h => Bool.false_ne_true h.2) Bool.false_ne_true
  -- the one error a run can break off with has a code of its own
  · cases e
    exact iff_of_false (fun h => absurd h.1 (by decide : (6 : Int) ≠ 0))
      (by decide : (6 : Int) ∉ [1, 2, -2, -6])

end Backend

/-! ## Every session and every call -/

/-- **All or nothing.** A backend with solutions of the program's sizes decides what
becomes of the outputs and of the status, in every session and in every call; it is set
up once at most, and asked to solve once exactly where that succeeded. A call that
cannot be read fails and leaves the outputs alone. With the solver of this library the
outputs are filled exactly where the status is 1, 2, −2 or −6. -/
theorem outputs_all_or_nothing {α : Type} [RoundingScalar α] (refusal : String → Option String) :
    (∀ (b : Backend α) (state : SessionState) (p : Program α) (settings : Settings α)
      (path : String) (primal dual : Array α),
      b.Sized p settings (Session.opensLog refusal path) →
        b.Decides p settings (Session.opensLog refusal path) primal dual
            (Session.run b refusal state p settings path primal dual).steps
            (Session.run b refusal state p settings path primal dual).ending ∧
          b.Counts p settings (Session.opensLog refusal path) primal dual
            (Session.run b.counted refusal state p settings path primal dual).steps) ∧
    (∀ (b : Backend α) (c : Call α) (primal dual : Array α),
      (∀ p pairs, (c.loaned primal dual).Marshals p pairs →
        b.Sized p (.ofAssignments pairs) (Session.opensLog refusal c.logPath)) →
      (∀ p pairs, (c.loaned primal dual).Marshals p pairs →
        b.Decides p (.ofAssignments pairs) (Session.opensLog refusal c.logPath) primal dual
            (c.solve b refusal primal dual).steps
            ((c.solve b refusal primal dual).ending.map Outcome.status) ∧
          b.Counts p (.ofAssignments pairs) (Session.opensLog refusal c.logPath) primal dual
            (c.solve b.counted refusal primal dual).steps) ∧
      ((∀ p pairs, ¬ (c.loaned primal dual).Marshals p pairs) →
        (c.solve b refusal primal dual).ending = .ok ⟨-1, false⟩ ∧
          History.LeavesOutputs primal dual (c.solve b refusal primal dual).steps ∧
          History.heard (c.solve b.counted refusal primal dual).steps = [])) ∧
    ∀ (narrator : Narrator α) (clock : Clock α) (order : EliminationOrder),
      (∀ (state : SessionState) (p : Program α) (settings : Settings α) (path : String)
        (primal dual : Array α), p.A.ncols = p.n → p.A.nrows = p.m →
        ((∃ x y, History.FillsOutputs primal dual x y (Session.run (.admm narrator clock order)
            refusal state p settings path primal dual).steps) ↔
          ∃ status, (Session.run (.admm narrator clock order) refusal state p settings path
            primal dual).ending = .ok status ∧ status ∈ [1, 2, -2, -6])) ∧
      ∀ (c : Call α) (primal dual : Array α),
        (∃ x y, History.FillsOutputs primal dual x y
            (c.solve (.admm narrator clock order) refusal primal dual).steps) ↔
          ∃ status, (c.solve (.admm narrator clock order) refusal primal dual).ending.map
            Outcome.status = .ok status ∧ status ∈ [1, 2, -2, -6] := by
  refine ⟨fun b state p settings path primal dual hb => ⟨Session.run_decides hb state primal dual,
      (Session.run_decides hb.counted state primal dual).counts⟩,
    fun b c primal dual hb => ⟨fun p pairs hc => ⟨Call.solve_decides hc (hb p pairs hc),
      (Call.solve_decides hc (hb p pairs hc).counted).counts⟩, fun hc => ?_⟩,
    fun narrator clock order => ⟨fun state p settings path primal dual hn hm => ?_,
      fun c primal dual => ?_⟩⟩
  · obtain ⟨hending, hleaves, -⟩ := Call.solve_unread b refusal hc
    exact ⟨hending, hleaves, (Call.solve_unread b.counted refusal hc).2.2⟩
  · exact (Session.run_decides (Backend.sized_admm hn hm) state primal dual).fills_iff_mem
      (by decide) fun s s' exit _ hsolve => Backend.admm_solution_iff hsolve
  · by_cases hc : ∃ p pairs, (c.loaned primal dual).Marshals p pairs
    · obtain ⟨p, pairs, hc⟩ := hc
      have hroom := hc.1.hasRoom
      exact (Call.solve_decides hc (Backend.sized_admm hroom.linear.ncols_eq
        hroom.linear.nrows_eq)).fills_iff_mem (by decide)
          fun s s' exit _ hsolve => Backend.admm_solution_iff hsolve
    · have hunread : ∀ p pairs, ¬ (c.loaned primal dual).Marshals p pairs :=
        fun p pairs hmarshals => hc ⟨p, pairs, hmarshals⟩
      obtain ⟨hending, hleaves, -⟩ := Call.solve_unread
        (.admm narrator clock order) refusal hunread
      refine iff_of_false ?_ ?_
      · rintro ⟨x, y, hfills⟩
        have hwrites := hfills.writes_eq
        rw [hleaves.writes_eq] at hwrites
        cases hwrites
      · rintro ⟨status, hstatus, hmem⟩
        rw [hending] at hstatus
        cases hstatus
        exact absurd hmem (by decide)

/-! ### A call with one variable -/

namespace OneVariable

/-- `½·x² − x`, without constraints. -/
def call : Call Float := { n := 1, objective := #[-1], quadratic := ⟨#[0], #[0], #[1]⟩ }

/-- It finds the minimum. -/
def backend : Backend Float := .scripted { status := 1, solution := some (#[1], #[]) }

/-- The call can be read. -/
theorem marshals : ∃ p pairs, (call.loaned #[0] #[]).Marshals p pairs := by
  have hquadratic : (((call.loaned #[0] #[]).P.coordinates.toCsc "quadratic objective" 1
      1).toOption.bind Except.toOption).isSome = true := by
    decide +kernel
  have hlinear : (((call.loaned #[0] #[]).A.coordinates.toCsc "constraint matrix" 0
      1).toOption.bind Except.toOption).isSome = true := by
    decide +kernel
  have hof : ∀ {r : Checked (Except CallError (Csc Float × ℕ))},
      (r.toOption.bind Except.toOption).isSome = true →
        ∃ M dropped, r = .ok (.ok (M, dropped)) := by
    rintro (_ | _ | ⟨M, dropped⟩) h
    · cases h
    · cases h
    · exact ⟨M, dropped, rfl⟩
  obtain ⟨P, dropped, hP⟩ := hof hquadratic
  obtain ⟨A, dropped', hA⟩ := hof hlinear
  exact ⟨⟨1, 0, P, (call.loaned #[0] #[]).q, A, (call.loaned #[0] #[]).l, (call.loaned #[0] #[]).u⟩,
    [], ⟨rfl, ⟨dropped, hP⟩, ⟨dropped', hA⟩, rfl, rfl, rfl⟩, rfl⟩

/-- However the call is read, it has one variable. -/
theorem sizes {p : Program Float} {pairs : List (Assignment Float)}
    (h : (call.loaned #[0] #[]).Marshals p pairs) : p.n = 1 ∧ p.m = 0 := by
  have hsizes : (.ok (1, 0) : Except CallError (ℕ × ℕ)) = .ok (p.n, p.m) := h.1.sizes
  cases p
  cases hsizes
  exact ⟨rfl, rfl⟩

end OneVariable

/-- The outputs of the call are filled, and its status is that of the backend. With minus one
variables it could not be read. -/
theorem outputs_all_or_nothing_oneVariable : (∃ p pairs,
    (OneVariable.call.loaned #[0] #[]).Marshals p pairs ∧
      History.FillsOutputs #[0] #[] #[1] #[]
        (OneVariable.call.solve OneVariable.backend (fun _ => none) #[0] #[]).steps ∧
      (OneVariable.call.solve OneVariable.backend (fun _ => none) #[0] #[]).ending.map
        Outcome.status = .ok 1) ∧
    History.LeavesOutputs #[0] #[]
      (({ OneVariable.call with n := -1 } : Call Float).solve OneVariable.backend
        (fun _ => none) #[0] #[]).steps := by
  obtain ⟨-, hcalls, -⟩ := outputs_all_or_nothing (α := Float) fun _ => none
  have hunread : ∀ p pairs, ¬ (({ OneVariable.call with n := -1 } : Call Float).loaned #[0]
      #[]).Marshals p pairs := fun p pairs hc => by
    have hsizes : (.error _ : Except CallError (ℕ × ℕ)) = .ok (p.n, p.m) := hc.1.sizes
    cases hsizes
  refine ⟨?_, ((hcalls OneVariable.backend _ _ _ fun p pairs hc =>
    absurd hc (hunread p pairs)).2 hunread).2.1⟩
  obtain ⟨p, pairs, hc⟩ := OneVariable.marshals
  obtain ⟨hn, hm⟩ := OneVariable.sizes hc
  have hfit : Session.Fit OneVariable.backend p #[0] #[] := ⟨rfl, hn.symm, hm.symm⟩
  obtain ⟨hdecides, -⟩ := (hcalls OneVariable.backend OneVariable.call #[0] #[]
    fun p pairs hc x y hxy => by
      obtain ⟨_, _, -, -, hsolution⟩ := Backend.solution?_eq_some_iff.mp hxy
      cases hsolution
      exact ⟨(OneVariable.sizes hc).1.symm, (OneVariable.sizes hc).2.symm⟩).1 p pairs hc
  exact ⟨p, pairs, hc, (hdecides.fills_iff _ _).mpr ⟨hfit, _, _, rfl, rfl, rfl⟩,
    hdecides.of_setup hfit _ rfl⟩

end SplitQP
