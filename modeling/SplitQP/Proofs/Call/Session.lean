import SplitQP.Proofs.Call.History
/-!
# How a session goes

A session that is fit opens its log, sets up, solves and closes
(`run_of_fit`); one that is not closes at once (`run_of_unfit`). Setting up
and solving go in one of six ways (`Solving`), each with its steps and its
ending, and nothing else can happen (`solving_solve`).
-/

namespace SplitQP

open Checked

namespace Session

variable {α : Type} {b : Backend α} {p : Program α} {settings : Settings α} {hasLog : Bool}
  {primal dual : Array α}

/-! ## Setting up and solving -/

/-- The steps of a session from its setup to the end of its solving, and those after. -/
def working (b : Backend α) (p : Program α) (settings : Settings α) (hasLog : Bool)
    (w : b.Workspace) (rest : History α) : History α :=
  (b.setup p settings hasLog).steps.map (hear hasLog) ++
    .moved .configured .ready :: .happened .workspaceReady ::
      ((b.solve w).steps.map (hear hasLog) ++ rest)

/-- **The ways setting up and solving can go,** with the steps taken and the
ending. -/
inductive Solving (b : Backend α) (p : Program α) (settings : Settings α) (hasLog : Bool)
    (primal dual : Array α) : Course (Step α) (Int × SessionState) → Prop
  /-- The backend faults while it is set up. -/
  | setupFaulted {f : Fault} : (b.setup p settings hasLog).ending = .error f →
      Solving b p settings hasLog primal dual
        ⟨(b.setup p settings hasLog).steps.map (hear hasLog), .error f⟩
  /-- The backend cannot be set up. -/
  | notSetUp {code : Int} : (b.setup p settings hasLog).ending = .ok (.error code) →
      Solving b p settings hasLog primal dual
        ⟨(b.setup p settings hasLog).steps.map (hear hasLog) ++
          [.moved .configured .failed, .happened (.setupFailed code)],
          .ok (setupErrorCode, .failed)⟩
  /-- The backend faults while it solves. -/
  | solveFaulted {w : b.Workspace} {f : Fault} :
      (b.setup p settings hasLog).ending = .ok (.ok w) → (b.solve w).ending = .error f →
      Solving b p settings hasLog primal dual ⟨working b p settings hasLog w [], .error f⟩
  /-- The backend breaks off. -/
  | brokeOff {w w' : b.Workspace} {exit : Int} :
      (b.setup p settings hasLog).ending = .ok (.ok w) → (b.solve w).ending = .ok (w', exit) →
      exit ≠ 0 → Solving b p settings hasLog primal dual
        ⟨working b p settings hasLog w [.moved .ready .failed,
          .happened (.solveFailed exit), .happened .workspaceReleased], .ok (exit, .failed)⟩
  /-- The backend solves, and its solution is handed over if it has one. -/
  | solved {w w' : b.Workspace} :
      (b.setup p settings hasLog).ending = .ok (.ok w) → (b.solve w).ending = .ok (w', 0) →
      (handOver primal dual (b.solution w')).ending = .ok () →
      Solving b p settings hasLog primal dual
        ⟨working b p settings hasLog w ((handOver primal dual (b.solution w')).steps ++
          [.moved .ready .solved, .happened (.solved (b.status w')),
            .happened .workspaceReleased]), .ok (b.status w', .solved)⟩
  /-- The solution does not fit into the output buffers. -/
  | misfit {w w' : b.Workspace} {f : Fault} :
      (b.setup p settings hasLog).ending = .ok (.ok w) → (b.solve w).ending = .ok (w', 0) →
      (handOver primal dual (b.solution w')).ending = .error f →
      Solving b p settings hasLog primal dual
        ⟨working b p settings hasLog w (handOver primal dual (b.solution w')).steps, .error f⟩

/-- **Setting up and solving go in one of these ways.** -/
theorem solving_solve (b : Backend α) (p : Program α) (settings : Settings α) (hasLog : Bool)
    (primal dual : Array α) :
    Solving b p settings hasLog primal dual (solve b p settings hasLog primal dual) := by
  rw [solve]
  cases hsetup : (b.setup p settings hasLog).ending with
  | error f =>
    rw [Course.mapSteps_bind_of_error hsetup]
    exact .setupFaulted hsetup
  | ok r =>
    rw [Course.mapSteps_bind_of_ok hsetup]
    cases r with
    | error code => exact .notSetUp hsetup
    | ok w =>
      simp only [move, happen, Course.step_bind]
      cases hsolve : (b.solve w).ending with
      | error f =>
        rw [Course.mapSteps_bind_of_error hsolve, ← List.append_nil (List.map _ (b.solve w).steps)]
        exact .solveFaulted hsetup hsolve
      | ok r =>
        obtain ⟨w', exit⟩ := r
        rw [Course.mapSteps_bind_of_ok hsolve]
        dsimp only
        split
        · rename_i hexit
          subst hexit
          cases hfits : (handOver primal dual (b.solution w')).ending with
          | error f =>
            rw [Course.bind_of_error hfits]
            exact .misfit hsetup hsolve hfits
          | ok _ =>
            rw [Course.bind_of_ok hfits]
            exact .solved hsetup hsolve hfits
        · exact .brokeOff hsetup hsolve ‹_›

/-- What is written where the solution fits. -/
theorem handOver_of_fits {solution : Option (Array α × Array α)}
    (h : ∀ x y, solution = some (x, y) → x.size = primal.size ∧ y.size = dual.size) :
    (handOver primal dual solution).ending = .ok () ∧
      History.writes (handOver primal dual solution).steps = Write.ofSolution solution := by
  cases solution with
  | none => exact ⟨rfl, rfl⟩
  | some v =>
    obtain ⟨x, y⟩ := v
    obtain ⟨hx, hy⟩ := h x y rfl
    rw [handOver, fill, fill, require_eq_ok hx, require_eq_ok hy]
    exact ⟨rfl, rfl⟩

/-- Handing over takes no other steps, also where the solution does not fit. -/
theorem handOver_takes (solution : Option (Array α × Array α)) :
    (handOver primal dual solution).Takes fun s => s.write?.isSome := by
  have hfill : ∀ (size : ℕ) (v : Array α) (written : Array α → Step α),
      (∀ v, (written v).write?.isSome) → (fill size v written).Takes fun s => s.write?.isSome := by
    intro size v written hwritten
    refine Course.Takes.bind (fun s hs => by cases hs) fun _ _ s hs => ?_
    obtain rfl : s = written v := List.mem_singleton.mp hs
    exact hwritten v
  cases solution with
  | none => exact fun s hs => by cases hs
  | some v => exact (hfill _ _ _ fun _ => rfl).bind fun _ _ => hfill _ _ _ fun _ => rfl

/-! ## A session -/

/-- **The session can begin:** the widths are the callers', and the output buffers
have the sizes of the program. -/
structure Fit (b : Backend α) (p : Program α) (primal dual : Array α) : Prop where
  widths_eq : b.widths = .expected
  size_primal : primal.size = p.n
  size_dual : dual.size = p.m

theorem unfit?_eq_none_iff : unfit? b p primal dual = none ↔ Fit b p primal dual := by
  constructor
  · intro h
    rw [unfit?] at h
    split_ifs at h with hwidths hsizes
    obtain ⟨hprimal, hdual⟩ := not_or.mp hsizes
    exact ⟨not_not.mp hwidths, not_not.mp hprimal, not_not.mp hdual⟩
  · rintro ⟨hwidths, hprimal, hdual⟩
    rw [unfit?, if_neg (not_not.mpr hwidths),
      if_neg (not_or.mpr ⟨not_not.mpr hprimal, not_not.mpr hdual⟩)]

/-- A log is wanted and can be had. -/
def opensLog (refusal : String → Option String) (path : String) : Bool :=
  match LogEvent.ofPath? refusal path with
  | some (.opened _) => true
  | _ => false

section Log

variable (refusal : String → Option String) (path : String)

/-- What opening the log comes to, and what it leaves on the trace. -/
theorem openLog_ensures : (openLog (α := α) refusal path).ending = .ok (opensLog refusal path) ∧
    History.events (openLog (α := α) refusal path).steps =
      (if opensLog refusal path then [.logOpened] else []) ∧
    (openLog (α := α) refusal path).Takes fun s => s.write? = none ∧ s.isHeard = false ∧
      s.acquisition? = none ∧ s.release? = none := by
  rw [openLog, opensLog]
  cases LogEvent.ofPath? refusal path with
  | none => exact ⟨rfl, rfl, fun s hs => by cases hs⟩
  | some event =>
    cases event with
    | opened path =>
      exact ⟨rfl, rfl, List.forall_mem_cons.mpr ⟨⟨rfl, rfl, rfl, rfl⟩,
        List.forall_mem_singleton.mpr ⟨rfl, rfl, rfl, rfl⟩⟩⟩
    | refused path reason =>
      exact ⟨rfl, rfl, List.forall_mem_singleton.mpr ⟨rfl, rfl, rfl, rfl⟩⟩
    | closed => exact ⟨rfl, rfl, List.forall_mem_singleton.mpr ⟨rfl, rfl, rfl, rfl⟩⟩

end Log

/-- The steps with which everything is given up. -/
def closing (p : Program α) (hasLog : Bool) (state : SessionState) : History α :=
  .happened .settingsReleased :: (p.tags.map .released ++ .happened .problemReleased ::
    ((if hasLog then [.log .closed, .happened .logClosed] else []) ++ [.moved state .released]))

theorem close_bind {β : Type} (state : SessionState) (f : Unit → Course (Step α) β) :
    close p hasLog state >>= f =
      ⟨closing p hasLog state ++ (f ()).steps, (f ()).ending⟩ := by
  cases hasLog with
  | false => rfl
  | true => rfl

/-- **A session that cannot begin closes at once.** -/
theorem run_of_unfit (refusal : String → Option String) (path : String)
    (h : ¬ Fit b p primal dual) (settings : Settings α) (state : SessionState) :
    ∃ why, run b refusal state p settings path primal dual =
      ⟨.moved state .configured :: .unfit why :: .moved .configured .failed ::
        closing p false .failed, .ok setupErrorCode⟩ := by
  cases hfit : unfit? b p primal dual with
  | none => exact absurd (unfit?_eq_none_iff.mp hfit) h
  | some why =>
    refine ⟨why, ?_⟩
    rw [run, hfit]
    rfl

variable {refusal : String → Option String} {path : String}

/-- **A session that begins sets up, solves and closes.** At a fault of the backend
the buffers are given back and that is all. -/
theorem run_of_fit (h : Fit b p primal dual) (state : SessionState) :
    run b refusal state p settings path primal dual =
      match (solve b p settings (opensLog refusal path) primal dual).ending with
      | .ok (status, final) =>
        ⟨.moved state .configured :: ((openLog refusal path).steps ++
          ((solve b p settings (opensLog refusal path) primal dual).steps ++
            closing p (opensLog refusal path) final)), .ok status⟩
      | .error f =>
        ⟨.moved state .configured :: ((openLog refusal path).steps ++
          ((solve b p settings (opensLog refusal path) primal dual).steps ++
            p.tags.map .released)), .error f⟩ := by
  have hopen := (openLog_ensures (α := α) refusal path).1
  rw [run, unfit?_eq_none_iff.mpr h, move, Course.step_bind]
  dsimp only
  rw [Course.bind_of_ok hopen]
  generalize solve b p settings (opensLog refusal path) primal dual = solving
  obtain ⟨steps, ending⟩ := solving
  cases ending with
  | error f => rfl
  | ok r =>
    simp only [Course.onFault]
    rw [Course.bind_of_ok rfl]
    dsimp only
    rw [close_bind]
    simp only [Course.steps_pure, Course.ending_pure, List.append_nil]

end Session

end SplitQP
