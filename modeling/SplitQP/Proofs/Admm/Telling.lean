import SplitQP.Proofs.Number.Double
import SplitQP.Proofs.Admm.Progress
import SplitQP.Proofs.Admm.Unseen
/-!
# Telling does not touch a run

Progress is told as a run goes along, event by event, to a target that may
refuse any of it (`Solver.runTelling`). Where the settings can be told it makes
no difference that `Solver.runTold` tells about the whole run afterwards
(`Solver.runTelling_eq`). Without a time limit, whatever becomes of the text and
whatever the clock reads, a solver that is run again and again goes the way it
goes when nobody is told (`Solver.runAll_eq_runs`).
-/

namespace SplitQP

open Checked

namespace Progress

variable {p : Problem Float} {set : Settings Float} {clock : Clock Float}
  {f : Told → Event Float → Told}

/-! ## Without a time limit -/

theorem Tellable.of_beq (h : (set.timeLimit == 0.0) = true) : Tellable set :=
  fun _ => ⟨"none", by rw [timeLimitText, if_pos h]; rfl⟩

/-- Zero is no limit, whatever its sign. -/
theorem untimed_of_beq (h : (set.timeLimit == 0.0) = true) : set.Untimed := by
  rw [Settings.Untimed]
  rcases Binary.beq_zero_iff.mp h with h | h <;> rw [h] <;> decide

/-! ## What telling does -/

/-- Telling about an event answers with `f`. -/
def TellsAs (p : Problem Float) (set : Settings Float) (clock : Clock Float)
    (f : Told → Event Float → Told) : Prop :=
  ∀ told event, tell p set clock told event = .ok (f told event)

theorem Tellable.exists_tellsAs (h : Tellable set) (p : Problem Float) (clock : Clock Float) :
    ∃ f, TellsAs p set clock f := by
  choose f hf _ using tell_ensures h p clock
  exact ⟨f, hf⟩

theorem TellsAs.tellAll_eq (h : TellsAs p set clock f) (told : Told) (events : List (Event Float)) :
    tellAll p set clock told events = .ok (events.foldl f told) := by
  induction events generalizing told with
  | nil => rfl
  | cons event events ih =>
    rw [tellAll, List.foldlM_cons, h told event]
    exact ih _

end Progress

open Progress

/-- A stage whose events have been told. -/
def Stage.told {β : Type} (f : Told → Event Float → Told) (told : Told) (stage : Stage Float β) :
    Stage Float β × Told :=
  ({ stage with events := [] }, stage.events.foldl f told)

namespace Solver

/-! ## Telling as a run goes along -/

/-- Iteration `iter`, with its row told before the check and its notes after the
adaptation. -/
def iterationTelling (s : Solver Float) (clock : Clock Float) (iter : ℕ) (told : Told) :
    Checked (Stage Float Bool × Told) := do
  let s ← s.advance iter
  let check := isDue s.settings.checkTermination iter
  let adapt := isDue (adaptInterval s.settings) iter
  let s ← s.refresh (check || adapt)
  let told ← tellAll s.problem s.settings clock told (if check then [s.tableRow] else [])
  match ← s.checkIfDue check with
  | some s => return (⟨s, [], .ok false⟩, told)
  | none =>
    let stage ← s.adaptIfDue adapt
    let told ← tellAll s.problem s.settings clock told stage.events
    return (goOn clock iter [] { stage with events := [] }, told)

/-- The last check, with its row told before it. -/
def lastCheckTelling (s : Solver Float) (clock : Clock Float) (told : Told) :
    Checked (Stage Float Unit × Told) := do
  let s ← s.updateResiduals
  let told ← tellAll s.problem s.settings clock told
    (if isDue s.settings.checkTermination s.settings.maxIter then [] else [s.tableRow])
  match ← s.checkTermination false with
  | some s => return (⟨s, [], .ok ()⟩, told)
  | none =>
    match ← s.checkTermination true with
    | some s => return (⟨s, [], .ok ()⟩, told)
    | none =>
      return (⟨{ s with info := { s.info with status := .maxIterations } }, [], .ok ()⟩, told)

/-- The iterations from `iter` on, as many as `count`, and then the last check. -/
def iterationsTelling (clock : Clock Float) :
    ℕ → ℕ → Solver Float → Told → Checked (Stage Float Unit × Told)
  | 0, _, s, told => s.lastCheckTelling clock told
  | count + 1, iter, s, told => do
    let (stage, told) ← s.iterationTelling clock iter told
    match stage.result with
    | .error e => return (⟨stage.solver, [], .error e⟩, told)
    | .ok false => return (⟨stage.solver, [], .ok ()⟩, told)
    | .ok true => iterationsTelling clock count (iter + 1) stage.solver told

/-- Iterates, unless the bounds given contradict each other. -/
def searchTelling (s : Solver Float) (clock : Clock Float) (told : Told) :
    Checked (Stage Float Unit × Told) :=
  if s.problem.crossedBounds then do
    let told ← tell s.problem s.settings clock told (.noted .crossedBounds)
    return (⟨{ s with info := { s.info with status := .primalInfeasible } }, [], .ok ()⟩, told)
  else
    iterationsTelling clock s.settings.maxIter 1 s told

/-- **Runs the solver, telling as it goes along.** -/
def runTelling (s : Solver Float) (clock : Clock Float) (told : Told) :
    Checked (Solver Float × Except SolveError Unit × Told) := do
  let told ← tell s.problem s.settings clock told .started
  let (stage, told) ← { s with info := s.info.restart }.searchTelling clock told
  let (polished, polishing) ← polishIfWanted stage
  let told ← tellAll s.problem s.settings clock told polishing
  let final ← polished.conclude
  let told ← tellAll s.problem s.settings clock told
    (.finished final.info :: abortNote stage.result)
  return (final, stage.result, told)

variable {s : Solver Float} {clock : Clock Float} {f : Told → Event Float → Told} {told : Told}
  {iter : ℕ}

theorem goOn_told (before : List (Event Float)) (stage : Stage Float Unit) :
    (goOn clock iter before stage).told f told =
      (goOn clock iter [] { stage with events := [] },
        stage.events.foldl f (before.foldl f told)) := by
  obtain ⟨s, events, result⟩ := stage
  cases result with
  | error e => simp [goOn, Stage.told]
  | ok _ =>
    simp only [goOn]
    cases s.timeIsUp clock iter <;> simp [Stage.told]

theorem iterationTelling_eq (h : TellsAs s.problem s.settings clock f) :
    s.iterationTelling clock iter told = (s.iteration clock iter).map (Stage.told f told) := by
  rw [iterationTelling, iteration]
  cases hadv : s.advance iter with
  | error e => rfl
  | ok s₁ =>
    obtain ⟨v, rfl⟩ := advance_eq_ok hadv
    simp only [ok_bind]
    generalize isDue s.settings.checkTermination iter = check
    generalize isDue (adaptInterval s.settings) iter = adapt
    cases hrefresh : refresh { s with iterate := v, info := { s.info with iterations := iter } }
        (check || adapt) with
    | error e => rfl
    | ok s₂ =>
      have hsame : TellsAs s₂.problem s₂.settings clock f := by
        rcases refresh_eq_ok hrefresh with ⟨-, hupdate⟩ | ⟨-, rfl⟩
        · obtain ⟨r, -, rfl⟩ := updateResiduals_eq_ok hupdate
          exact h
        · exact h
      simp only [ok_bind, hsame.tellAll_eq]
      cases s₂.checkIfDue check with
      | error e => rfl
      | ok checked =>
        cases checked with
        | some s₃ => rfl
        | none =>
          cases s₂.adaptIfDue adapt with
          | error e => rfl
          | ok stage =>
            simp only [ok_bind, pure_eq_ok, Except.map, goOn_told]

theorem lastCheckTelling_eq (h : TellsAs s.problem s.settings clock f) :
    s.lastCheckTelling clock told = s.lastCheck.map (Stage.told f told) := by
  rw [lastCheckTelling, lastCheck]
  cases hupdate : s.updateResiduals with
  | error e => rfl
  | ok s₁ =>
    obtain ⟨r, -, rfl⟩ := updateResiduals_eq_ok hupdate
    simp only [ok_bind, h.tellAll_eq]
    cases checkTermination { s with residuals := r, info := s.info.update r } false with
    | error e => rfl
    | ok checked =>
      cases checked with
      | some s₂ => rfl
      | none =>
        cases checkTermination { s with residuals := r, info := s.info.update r } true with
        | error e => rfl
        | ok checked => cases checked <;> rfl

/-- **The iterations tell what they list,** in the same order. -/
theorem iterationsTelling_eq (h : TellsAs s.problem s.settings clock f) (count : ℕ)
    (before : List (Event Float)) :
    iterationsTelling clock count iter s (before.reverse.foldl f told) =
      (iterations clock count iter before s).map (Stage.told f told) := by
  -- the events so far, last first, are those that have been told
  induction count generalizing iter before s with
  | zero =>
    rw [iterationsTelling, iterations, lastCheckTelling_eq h]
    cases s.lastCheck with
    | error e => rfl
    | ok stage => simp [Except.map, Stage.told]
  | succ count ih =>
    rw [iterationsTelling, iterations, iterationTelling_eq h]
    cases hiter : s.iteration clock iter with
    | error e => rfl
    | ok stage =>
      have hiterated := iterated_of_iteration hiter
      obtain ⟨s₁, hadv, hafter⟩ := hiterated.steps
      have hsame : TellsAs stage.solver.problem stage.solver.settings clock f := by
        rw [hiterated.settings_eq,
          (problem_of_moves ((Steps.moves hafter).head (.step (.advanced hadv)))).1]
        exact h
      obtain ⟨t, events, result⟩ := stage
      have hlisted : events.foldl f (before.reverse.foldl f told) =
          (events.reverse ++ before).reverse.foldl f told := by simp
      simp only [Except.map, ok_bind, Stage.told, hlisted]
      cases result with
      | error e => rfl
      | ok on =>
        cases on with
        | false => rfl
        | true => exact ih hsame _

theorem searchTelling_eq (h : TellsAs s.problem s.settings clock f) :
    s.searchTelling clock told = (s.search clock).map (Stage.told f told) := by
  rw [searchTelling, search]
  cases s.problem.crossedBounds with
  | true =>
    simp only [if_true, h told, ok_bind]
    rfl
  | false => exact iterationsTelling_eq h _ []

/-- **Telling as a run goes along** is telling about it afterwards. -/
theorem runTelling_eq (h : Tellable s.settings) (clock : Clock Float) (told : Told) :
    s.runTelling clock told = s.runTold clock told := by
  obtain ⟨f, hf⟩ := h.exists_tellsAs s.problem clock
  have hrestart : TellsAs { s with info := s.info.restart }.problem
      { s with info := s.info.restart }.settings clock f := hf
  rw [runTelling, runTold, run, hf told, ok_bind, searchTelling_eq hrestart]
  cases search { s with info := s.info.restart } clock with
  | error e => rfl
  | ok stage =>
    have hpolish : polishIfWanted { stage with events := [] } = polishIfWanted stage := rfl
    simp only [Except.map, ok_bind, Stage.told, hpolish]
    cases polishIfWanted stage with
    | error e => rfl
    | ok r =>
      obtain ⟨t, polishing⟩ := r
      simp only [ok_bind, hf.tellAll_eq]
      cases t.conclude with
      | error e => rfl
      | ok final => simp

/-! ## Runs in sequence -/

/-- **How a run is shown:** whether progress is printed, what the clock reads meanwhile, and
what is done beforehand about the target and where it writes to. -/
structure Showing where
  verbose : Bool
  clock : Clock Float
  aim : Told → Told

/-- Runs a solver again and again, each run shown in its own way. Lists the solver after each
run, and what the run came to. -/
def runAll : List Showing → Solver Float → Told →
    Checked (List (Solver Float × Except SolveError Unit))
  | [], _, _ => return []
  | showing :: rest, s, told => do
    let (s, result, told) ←
      (s.withVerbose showing.verbose).runTelling showing.clock (showing.aim told)
    return (s, result) :: (← runAll rest s told)

/-- Runs a solver as often and tells nobody. -/
def runs (clock : Clock Float) : ℕ → Solver Float →
    Checked (List (Solver Float × Except SolveError Unit))
  | 0, _ => return []
  | count + 1, s => do
    let stage ← s.run clock
    return (stage.solver, stage.result) :: (← runs clock count stage.solver)

/-- A solver and a result but for whether progress is printed. -/
def unshown (r : Solver Float × Except SolveError Unit) : Solver Float × Except SolveError Unit :=
  (r.1.withVerbose false, r.2)

/-- A run that is told comes to what the run comes to. -/
theorem exists_runTelling_eq (h : Tellable s.settings) (clock : Clock Float) (told : Told) :
    ∃ after : Stage Float Unit → Told, s.runTelling clock told =
      (s.run clock).map fun stage => (stage.solver, stage.result, after stage) := by
  obtain ⟨f, hf⟩ := h.exists_tellsAs s.problem clock
  refine ⟨fun stage => stage.events.foldl f told, ?_⟩
  rw [runTelling_eq h, runTold]
  cases s.run clock with
  | error e => rfl
  | ok stage => simp only [ok_bind, hf.tellAll_eq, pure_eq_ok, Except.map]

/-- **However runs are shown,** they go the way they go when nobody is told. -/
theorem runAll_eq_runs (hlimit : (s.settings.timeLimit == 0.0) = true) (shows : List Showing)
    (told : Told) (clock : Clock Float) :
    (runAll shows s told).map (List.map unshown) =
      runs clock shows.length (s.withVerbose false) := by
  induction shows generalizing s told with
  | nil => rfl
  | cons showing rest ih =>
    -- a run told is the run, aloud or not; the rest of them starts from another `told`
    have hshown : Tellable (s.withVerbose showing.verbose).settings := .of_beq hlimit
    obtain ⟨after, hafter⟩ :=
      exists_runTelling_eq hshown showing.clock (showing.aim told)
    rw [runAll, hafter, run_withVerbose (untimed_of_beq hlimit) clock, List.length_cons, runs,
      run_withVerbose (untimed_of_beq hlimit) clock]
    cases hrun : s.run clock with
    | error e => rfl
    | ok stage =>
      have hset : stage.solver.settings.timeLimit = s.settings.timeLimit :=
        congrArg _ (ran_of_run hrun).settings_eq
      have hlimit' :
          ((stage.solver.withVerbose showing.verbose).settings.timeLimit == 0.0) = true :=
        hset ▸ hlimit
      have hrest := ih hlimit' (after (stage.withVerbose showing.verbose))
      have hquiet : (stage.solver.withVerbose showing.verbose).withVerbose false =
          stage.solver.withVerbose false := rfl
      rw [hquiet] at hrest
      simp only [Except.map, ok_bind, Stage.withVerbose] at hrest ⊢
      rw [← hrest]
      cases runAll rest (stage.solver.withVerbose showing.verbose) _ <;> rfl

/-- Sets a solver up and runs it, each run shown in its own way. -/
def life (P : Csc Float) (q : Array Float) (A : Csc Float) (l u : Array Float)
    (settings : Settings Float) (order : EliminationOrder) (shows : List Showing) (told : Told) :
    Checked (Except SetupError (List (Solver Float × Except SolveError Unit))) := do
  match ← setup P q A l u settings order with
  | .error e => return .error e
  | .ok s => return .ok (← runAll shows s told)

/-- **Lives of the same length** are the same, however they are shown. -/
theorem life_unshown (P : Csc Float) (q : Array Float) (A : Csc Float) (l u : Array Float)
    {settings : Settings Float} (order : EliminationOrder) (v : Bool) {shows shows' : List Showing}
    (told told' : Told) (hlimit : (settings.timeLimit == 0.0) = true)
    (hlength : shows'.length = shows.length) :
    (life P q A l u (settings.withVerbose v) order shows' told').map
        (Except.map (List.map unshown)) =
      (life P q A l u settings order shows told).map (Except.map (List.map unshown)) := by
  have hwrap : ∀ runs : Checked (List (Solver Float × Except SolveError Unit)),
      (runs >>= fun rs => pure (Except.ok rs : Except SetupError _)).map
        (Except.map (List.map unshown)) = (runs.map (List.map unshown)).map .ok := fun runs => by
    cases runs <;> rfl
  rw [life, life, setup_withVerbose]
  cases hsetup : setup P q A l u settings order with
  | error f => rfl
  | ok r =>
    cases r with
    | error e => rfl
    | ok s =>
      have hlimits : (s.settings.timeLimit == 0.0) = true := by
        rw [(starts_of_setup hsetup).settings_eq]
        exact hlimit
      have hlimits' : ((s.withVerbose v).settings.timeLimit == 0.0) = true := hlimits
      -- both lives are that of a solver that tells nobody
      have hruns := runAll_eq_runs hlimits shows told ⟨0, fun _ => 0, 0⟩
      have hruns' := runAll_eq_runs hlimits' shows' told' ⟨0, fun _ => 0, 0⟩
      rw [hlength] at hruns'
      exact (hwrap _).trans ((congrArg _ (hruns'.trans hruns.symm)).trans (hwrap _).symm)

end Solver

end SplitQP
