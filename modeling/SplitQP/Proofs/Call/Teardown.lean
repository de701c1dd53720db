import SplitQP.Proofs.Call.Outputs
/-!
# How a session is torn down

The trace of a session that ends is a word of a small grammar
(`SessionTrace`): the log stands around everything, the workspace is gone
before the settings, and the settings before the program. What it says of
the workspace goes with the status (`SessionWork`), and a session that
could not begin says nothing of one. Every such session is released, also
when one is run after the other (`Session.runs`).
-/

namespace SplitQP

open Checked

variable {α : Type}

/-! ## Traces -/

/-- **What a trace says of the workspace,** and the status it goes with. -/
inductive SessionWork : Int → List SessionEvent → Prop
  | setupFailed (code : Int) : SessionWork (-1) [.setupFailed code]
  | solved (status : Int) :
      SessionWork status [.workspaceReady, .solved status, .workspaceReleased]
  | solveFailed {exit : Int} : exit ≠ 0 →
      SessionWork exit [.workspaceReady, .solveFailed exit, .workspaceReleased]

/-- **The traces of a session** that could begin or not, with a log or without. -/
inductive SessionTrace (fit : Prop) (hasLog : Bool) : Int → List SessionEvent → Prop
  /-- It could not begin, and no log was opened. -/
  | unfit : ¬ fit → SessionTrace fit hasLog (-1) [.settingsReleased, .problemReleased]
  | logged {status : Int} {work : List SessionEvent} : fit → hasLog = true →
      SessionWork status work → SessionTrace fit hasLog status
        ([.logOpened] ++ work ++ [.settingsReleased, .problemReleased] ++ [.logClosed])
  | unlogged {status : Int} {work : List SessionEvent} : fit → hasLog = false →
      SessionWork status work → SessionTrace fit hasLog status
        (work ++ [.settingsReleased, .problemReleased])

/-! ## A session -/

namespace Session

variable {b : Backend α} {p : Program α} {settings : Settings α} {hasLog : Bool}
  {primal dual : Array α} {refusal : String → Option String} {path : String}
  {state : SessionState}

theorem events_working (w : b.Workspace) (rest : History α) :
    History.events (working b p settings hasLog w rest) =
      .workspaceReady :: History.events rest := by
  have hmoved : ∀ k : History α, History.events
      (.moved .configured .ready :: .happened .workspaceReady :: k) =
        .workspaceReady :: History.events k := fun _ => rfl
  rw [working, History.events_append, hmoved, History.events_append, History.events_hear,
    History.events_hear, List.nil_append, List.nil_append]

/-- **Setting up and solving** leave on the trace what goes with the status. -/
theorem work_of_solving {course : Course (Step α) (Int × SessionState)}
    (h : Solving b p settings hasLog primal dual course) {status : Int} {final : SessionState}
    (hok : course.ending = .ok (status, final)) :
    SessionWork status (History.events course.steps) := by
  cases h with
  | setupFaulted | solveFaulted | misfit => cases hok
  | @notSetUp code hsetup =>
    cases hok
    rw [History.events_append, History.events_hear]
    exact .setupFailed code
  | @brokeOff w w' exit hsetup hsolve hexit =>
    cases hok
    rw [events_working]
    exact .solveFailed hexit
  | @solved w w' hsetup hsolve hfits =>
    cases hok
    have hquiet : History.events (handOver primal dual (b.solution w')).steps = [] :=
      List.filterMap_eq_nil_iff.mpr fun s hs =>
        (Step.readings_of_write (handOver_takes _ s hs)).2.1
    rw [events_working, History.events_append, hquiet]
    exact .solved (b.status w')

theorem events_closing (p : Program α) (hasLog : Bool) (state : SessionState) :
    History.events (closing p hasLog state) = [.settingsReleased, .problemReleased] ++
      if hasLog then [.logClosed] else [] := by
  have hsettings : ∀ k : History α, History.events (.happened .settingsReleased :: k) =
      .settingsReleased :: History.events k := fun _ => rfl
  rw [closing, hsettings, History.events_append, History.events_released]
  cases hasLog with
  | false => rfl
  | true => rfl

/-- Whatever came before, closing ends in the last state. -/
theorem state_closing (start : SessionState) (h : History α) (p : Program α) (hasLog : Bool)
    (state : SessionState) :
    History.state start (h ++ closing p hasLog state) = .released := by
  have hlast : ∃ k : History α, closing p hasLog state = k ++ [.moved state .released] :=
    ⟨.happened .settingsReleased :: (p.tags.map .released ++ .happened .problemReleased ::
      if hasLog then [.log .closed, .happened .logClosed] else []), by simp [closing]⟩
  obtain ⟨k, hk⟩ := hlast
  rw [hk, ← List.append_assoc, History.state, List.foldl_append]
  rfl

/-- **A session that ends** leaves its trace, and is released. -/
theorem run_traced {status : Int}
    (h : (run b refusal state p settings path primal dual).ending = .ok status) :
    SessionTrace (Fit b p primal dual) (opensLog refusal path) status
        (History.events (run b refusal state p settings path primal dual).steps) ∧
      ∀ start, History.state start (run b refusal state p settings path primal dual).steps =
        .released := by
  by_cases hfit : Fit b p primal dual
  · rw [run_of_fit hfit] at h ⊢
    have hsolving := solving_solve b p settings (opensLog refusal path) primal dual
    have hopened := (openLog_ensures (α := α) refusal path).2.1
    cases hending : (solve b p settings (opensLog refusal path) primal dual).ending with
    | error f =>
      rw [hending] at h
      cases h
    | ok r =>
      obtain ⟨status', final⟩ := r
      rw [hending] at h
      cases h
      have hwork := work_of_solving hsolving hending
      dsimp only
      constructor
      · have hmoved : ∀ k : History α, History.events (.moved state .configured :: k) =
          History.events k := fun _ => rfl
        rw [hmoved, History.events_append, History.events_append, hopened, events_closing]
        cases hlog : opensLog refusal path with
        | true =>
          rw [hlog] at hwork
          simpa using SessionTrace.logged hfit rfl hwork
        | false =>
          rw [hlog] at hwork
          simpa using SessionTrace.unlogged hfit rfl hwork
      · intro start
        rw [← List.append_assoc, ← List.cons_append]
        exact state_closing start _ p _ final
  · obtain ⟨why, hrun⟩ := run_of_unfit refusal path hfit settings state
    rw [hrun] at h ⊢
    cases h
    exact ⟨.unfit hfit, fun start => state_closing start
      [.moved state .configured, .unfit why, .moved .configured .failed] p false .failed⟩

/-- **A session ends** where the backend does. -/
theorem run_ends (hb : b.Sized p settings (opensLog refusal path))
    (hdrive : ∃ r, b.drive p settings (opensLog refusal path) = .ok r) :
    ∃ status, (run b refusal state p settings path primal dual).ending = .ok status := by
  by_cases hfit : Fit b p primal dual
  · obtain ⟨r, hdrive⟩ := hdrive
    exact ⟨r.1, by rw [(run_outputs state hfit hb).1, hdrive]; rfl⟩
  · exact ⟨setupErrorCode, (run_outputs_of_unfit state hfit).1⟩

/-! ## One session after the other -/

/-- What a session is run on. The backend of one run need not act like that of the
next. -/
structure Job (α : Type) where
  backend : Backend α
  refusal : String → Option String
  program : Program α
  settings : Settings α
  path : String
  primal : Array α
  dual : Array α

namespace Job

/-- The job is run by a session in a state. It reports the status and its trace. -/
def run (job : Job α) (state : SessionState) : Course (Step α) (Int × List SessionEvent) :=
  let course := Session.run job.backend job.refusal state job.program job.settings job.path
    job.primal job.dual
  ⟨course.steps, course.ending.map (·, History.events course.steps)⟩

/-- The job can begin. -/
def Fit (job : Job α) : Prop := Session.Fit job.backend job.program job.primal job.dual

/-- The job has its log. -/
def opensLog (job : Job α) : Bool := Session.opensLog job.refusal job.path

theorem run_traced {job : Job α} {report : Int × List SessionEvent}
    (h : (job.run state).ending = .ok report) :
    SessionTrace job.Fit job.opensLog report.1 report.2 ∧
      ∀ start, History.state start (job.run state).steps = .released := by
  cases hending : (Session.run job.backend job.refusal state job.program job.settings job.path
    job.primal job.dual).ending with
  | error f =>
    rw [run, hending] at h
    cases h
  | ok status =>
    rw [run, hending] at h
    cases h
    exact Session.run_traced hending

end Job

/-- **One session runs its jobs** one after the other. -/
def runs (state : SessionState) : List (Job α) →
    Course (Step α) (List (Int × List SessionEvent))
  | [] => return []
  | job :: jobs => do
    let report ← job.run state
    let reports ← runs (History.state state (job.run state).steps) jobs
    return report :: reports

/-- **Every run leaves its trace,** and after each the session is released. -/
theorem runs_traced {jobs : List (Job α)} {reports : List (Int × List SessionEvent)}
    (h : (runs state jobs).ending = .ok reports) :
    List.Forall₂ (fun job report => SessionTrace job.Fit job.opensLog report.1 report.2)
        jobs reports ∧
      (jobs ≠ [] → History.state state (runs state jobs).steps = .released) := by
  induction jobs generalizing state reports with
  | nil =>
    cases h
    exact ⟨.nil, fun hne => absurd rfl hne⟩
  | cons job jobs ih =>
    rw [runs, Course.ending_bind] at h
    obtain ⟨report, hreport, h⟩ := bind_eq_ok.mp h
    obtain ⟨htrace, hreleased⟩ := Job.run_traced hreport
    rw [Course.ending_bind] at h
    obtain ⟨rest, hrest, h⟩ := bind_eq_ok.mp h
    cases h
    obtain ⟨htraces, hstate⟩ := ih hrest
    refine ⟨.cons htrace htraces, fun _ => ?_⟩
    have hsteps : (runs state (job :: jobs)).steps = (job.run state).steps ++
        (runs (History.state state (job.run state).steps) jobs).steps := by
      rw [runs, Course.bind_of_ok hreport, Course.bind_of_ok hrest, Course.steps_pure,
        List.append_nil]
    rw [hsteps, History.state, List.foldl_append]
    change History.state (History.state state (job.run state).steps) _ = _
    cases jobs with
    | nil => exact hreleased state
    | cons job' jobs => exact hstate (List.cons_ne_nil _ _)

end Session

end SplitQP
