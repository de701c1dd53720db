import SplitQP.Proofs.Admm.Telling
import SplitQP.Proofs.Admm.Transcript
import SplitQP.Proofs.Call.Answers
import SplitQP.Proofs.Call.Channels
import SplitQP.Proofs.Call.Standard
/-!
# Progress text does not influence a call

In a call there is no time limit, so what the solver comes to depends neither
on the clock nor on what is done with its words (`Backend.admm_drive_eq`). Two
calls that differ in the path of the log alone have the same status and the
same outputs, and the same text goes to the log of the one and to the standard
output of the other (`progress_unseen`).
-/

namespace SplitQP

open Checked

/-! ## The solver as a backend -/

/-- It answers where there is no time limit, as far as it can be refused anything. -/
def Narrator.Answers (narrator : Narrator Float) : Prop :=
  ∀ s : Solver Float, (s.settings.timeLimit == 0.0) = true → ∀ clock events,
    Ensures (narrator.run s clock events) fun _ => True

/-- The exit flag of a run. -/
def SolveError.exitFlag : Except SolveError Unit → Int
  | .ok () => 0
  | .error e => e.exitCode

namespace Backend

variable {narrator narrator' : Narrator Float} {clock clock' : Clock Float}
  {order : EliminationOrder} {s : Solver Float} {p : Program Float} {settings : Settings Float}

/-- What the solver says of a run, and what it comes to. -/
theorem admm_solve_eq {stage : Stage Float Unit} (hrun : s.run clock = .ok stage)
    {journal : Journal} {text : ByteArray}
    (hwords : narrator.run s clock stage.events = .ok (journal, text)) :
    ((admm narrator clock order).solve s).ending =
        .ok (stage.solver, SolveError.exitFlag stage.result) ∧
      ((admm narrator clock order).solve s).steps.filterMap Utterance.text? = [text] := by
  have hremarks : (journal.toList.map Utterance.remark).filterMap Utterance.text? = [] :=
    List.filterMap_eq_nil_iff.mpr (List.forall_mem_map.mpr fun _ _ => rfl)
  have hof : ∀ {β γ : Type} (b : β) (f : β → Course Utterance γ),
      Course.ofChecked (.ok b) >>= f = f b := fun _ _ => rfl
  simp only [admm, hrun, hof, hwords, Course.walk_bind, Course.step_bind]
  cases stage.result with
  | ok _ =>
    refine ⟨rfl, ?_⟩
    rw [List.filterMap_append, hremarks]
    rfl
  | error e =>
    refine ⟨rfl, ?_⟩
    rw [List.filterMap_append, hremarks]
    rfl

/-- Setting up says nothing but remarks. -/
theorem admm_setup_texts {hasLog : Bool} : ((admm narrator clock order).setup p settings
    hasLog).steps.filterMap Utterance.text? = [] := by
  simp only [admm]
  cases Solver.setup p.P p.q.data p.A p.l.data p.u.data settings order with
  | error f => rfl
  | ok r => cases r <;> rfl

/-- The ending of a solve, whatever is done with the words. -/
theorem admm_solve_ending (hnarrator : narrator.Answers)
    (hlimit : (s.settings.timeLimit == 0.0) = true) :
    ((admm narrator clock order).solve s).ending =
      (s.run clock).map fun stage => (stage.solver, SolveError.exitFlag stage.result) := by
  cases hrun : s.run clock with
  | error f =>
    simp only [admm, hrun]
    rfl
  | ok stage =>
    obtain ⟨⟨journal, text⟩, hwords, -⟩ := hnarrator s hlimit clock stage.events
    exact (admm_solve_eq hrun hwords).1

/-- **What a program comes to** depends on the program, the settings and the order alone. -/
theorem admm_drive_eq (hnarrator : narrator.Answers) (hnarrator' : narrator'.Answers)
    (hlimit : (settings.timeLimit == 0.0) = true) (hasLog hasLog' : Bool) :
    (admm narrator' clock' order).drive p settings hasLog' =
      (admm narrator clock order).drive p settings hasLog := by
  have hset : ((admm narrator clock order).setup p settings hasLog).ending = _ := admm_setup_ending
  have hset' : ((admm narrator' clock' order).setup p settings hasLog').ending = _ :=
    admm_setup_ending
  cases hsetup : Solver.setup p.P p.q.data p.A p.l.data p.u.data settings order with
  | error f =>
    rw [hsetup] at hset hset'
    rw [drive_of_setup_fault hset, drive_of_setup_fault hset']
  | ok r =>
    rw [hsetup] at hset hset'
    cases r with
    | error e => rw [drive_of_setup_error hset, drive_of_setup_error hset']
    | ok s =>
      have hlimits : (s.settings.timeLimit == 0.0) = true := by
        rw [(Solver.starts_of_setup hsetup).settings_eq]
        exact hlimit
      rw [drive_of_setup hset, drive_of_setup hset', admm_solve_ending hnarrator hlimits,
        admm_solve_ending hnarrator' hlimits,
        Solver.run_clock (Progress.untimed_of_beq hlimits) clock clock']
      cases s.run clock with
      | error f => rfl
      | ok stage => rfl

/-! ### Its words -/

theorem narrator_answers : Progress.narrator.Answers := fun s hlimit clock events => by
  refine (Progress.tellAll_ensures (.of_beq hlimit) _ clock _ events).bind fun told _ => ?_
  split <;> exact .ok trivial

/-- The text is the transcript. -/
theorem narrator_run {events : List (Event Float)} {lines : List String}
    (h : Progress.transcript s.problem s.settings clock events = .ok lines) :
    ∃ journal, Progress.narrator.run s clock events = .ok (journal, Progress.text lines) := by
  obtain ⟨journal, htell⟩ := @Progress.tellAll_buffer _ _ _ .empty {} #[] _ _ h
  refine ⟨journal, ?_⟩
  simp only [Progress.narrator, htell, ok_bind, ByteArray.empty_append, pure_eq_ok]

theorem texts_of_not_setUp {e : SetupError} {hasLog : Bool}
    (hsetup : Solver.setup p.P p.q.data p.A p.l.data p.u.data settings .natural =
      .ok (.error e)) : (standard clock).texts p settings hasLog = [] := by
  have hset : ((standard clock).setup p settings hasLog).ending = _ := admm_setup_ending
  rw [hsetup] at hset
  exact (texts_of_setup_error hset).trans admm_setup_texts

/-- **The text of the solver** is the transcript of its run. -/
theorem texts_of_run {stage : Stage Float Unit} {lines : List String} {hasLog : Bool}
    (hsetup : Solver.setup p.P p.q.data p.A p.l.data p.u.data settings .natural = .ok (.ok s))
    (hrun : s.run clock = .ok stage)
    (hlines : Progress.transcript s.problem s.settings clock stage.events = .ok lines) :
    (standard clock).texts p settings hasLog = [Progress.text lines] := by
  have hset : ((standard clock).setup p settings hasLog).ending = _ := admm_setup_ending
  rw [hsetup] at hset
  obtain ⟨journal, hwords⟩ := narrator_run hlines
  have hsetupTexts : ((standard clock).setup p settings hasLog).steps.filterMap Utterance.text? =
    [] := admm_setup_texts
  have hsolveTexts : ((standard clock).solve s).steps.filterMap Utterance.text? =
    [Progress.text lines] := (admm_solve_eq hrun hwords).2
  rw [texts_of_setup hset, hsetupTexts, List.nil_append]
  exact hsolveTexts

end Backend

/-! ## Two calls -/

/-- **Two calls come to the same:** they end the same, and write the same to the output
buffers. -/
structure Course.ComesToSame {α : Type} (x y : Course (Step α) Outcome) : Prop where
  ending_eq : y.ending = x.ending
  writes_eq : History.writes y.steps = History.writes x.steps
  primal_eq : ∀ start, History.primal start y.steps = History.primal start x.steps
  dual_eq : ∀ start, History.dual start y.steps = History.dual start x.steps

theorem Course.ComesToSame.of_writes {α : Type} {x y : Course (Step α) Outcome}
    (hending : y.ending = x.ending) (hwrites : History.writes y.steps = History.writes x.steps) :
    x.ComesToSame y where
  ending_eq := hending
  writes_eq := hwrites
  primal_eq start := by rw [History.primal_eq_foldl, History.primal_eq_foldl, hwrites]
  dual_eq start := by rw [History.dual_eq_foldl, History.dual_eq_foldl, hwrites]

namespace Call

variable {c : Call Float} {primal dual : Array Float}

/-- What a call comes to if it gets as far as a session. -/
theorem solve_comes_to (refusal : String → Option String) {b : Backend Float}
    {p : Program Float} {pairs : List (Assignment Float)}
    (hc : (c.loaned primal dual).Marshals p pairs) (hfit : Session.Fit b p primal dual)
    (hb : b.Sized p (.ofAssignments pairs) (Session.opensLog refusal c.logPath)) :
    (c.solve b refusal primal dual).ending =
        (b.drive p (.ofAssignments pairs) (Session.opensLog refusal c.logPath)).map
          (⟨·.1, true⟩) ∧
      History.writes (c.solve b refusal primal dual).steps = Write.ofSolution
        (b.solution? p (.ofAssignments pairs) (Session.opensLog refusal c.logPath)) := by
  rcases c.solve_refused_or_ran b refusal primal dual with ⟨hunfit, -⟩ | hran
  · exact absurd hfit (hunfit p pairs hc)
  · obtain ⟨p', pairs', before, after, hc', -, hhosts, hsolve⟩ := hran
    obtain ⟨rfl, rfl⟩ := hc.unique hc'
    obtain ⟨hending, hwrites, -⟩ := Session.run_outputs .uninitialized hfit hb
    rw [hsolve]
    refine ⟨?_, ?_⟩
    · rw [hending]
      cases b.drive p (.ofAssignments pairs) (Session.opensLog refusal c.logPath) <;> rfl
    · rw [History.writes_append, History.writes_append, hwrites,
        History.writes_of_preliminary hhosts.preliminary_before,
        History.writes_of_preliminary hhosts.preliminary_after, List.nil_append, List.append_nil]

theorem timeLimit_beq (pairs : List (Assignment Float)) :
    ((Settings.ofAssignments pairs).timeLimit == 0.0) = true := by
  rw [Settings.timeLimit_ofAssignments]
  decide +kernel

/-- **Whatever is done with the solver's words,** calls that differ in the path of the log
alone come to the same. -/
theorem solve_comesToSame {narrator narrator' : Narrator Float} (hnarrator : narrator.Answers)
    (hnarrator' : narrator'.Answers) (c : Call Float) (path path' : String)
    (refusal refusal' : String → Option String) (clock clock' : Clock Float)
    (order : EliminationOrder) (primal dual : Array Float) :
    (solve (.admm narrator clock order) refusal { c with logPath := path } primal dual).ComesToSame
      (solve (.admm narrator' clock' order) refusal' { c with logPath := path' } primal dual) := by
  by_cases hruns : ∃ p pairs, (c.loaned primal dual).Marshals p pairs ∧ primal.size = p.n ∧
      dual.size = p.m
  · obtain ⟨p, pairs, hc, hprimal, hdual⟩ := hruns
    have hroom := hc.1.hasRoom
    have hlimit := timeLimit_beq pairs
    obtain ⟨hending, hwrites⟩ := solve_comes_to (c := { c with logPath := path }) refusal
      (b := .admm narrator clock order) hc ⟨rfl, hprimal, hdual⟩
      (Backend.sized_admm hroom.linear.ncols_eq hroom.linear.nrows_eq)
    obtain ⟨hending', hwrites'⟩ := solve_comes_to (c := { c with logPath := path' }) refusal'
      (b := .admm narrator' clock' order) hc ⟨rfl, hprimal, hdual⟩
      (Backend.sized_admm hroom.linear.ncols_eq hroom.linear.nrows_eq)
    refine .of_writes ?_ ?_
    · rw [hending, hending', Backend.admm_drive_eq hnarrator hnarrator' hlimit]
    · rw [hwrites, hwrites', Backend.solution?, Backend.solution?,
        Backend.admm_drive_eq hnarrator hnarrator' hlimit]
  · -- neither call gets as far as its backend
    have hrefused : ∀ (b : Backend Float) (refusal : String → Option String) (path : String),
        (solve b refusal { c with logPath := path } primal dual).ending =
            .ok ⟨setupErrorCode, false⟩ ∧
          History.writes (solve b refusal { c with logPath := path } primal dual).steps = [] := by
      intro b refusal path
      rcases Call.solve_refused_or_ran { c with logPath := path } b refusal primal dual with
        ⟨-, hending, htakes⟩ | ⟨p, pairs, _, _, hc, hfit, -⟩
      · exact ⟨hending, History.writes_of_preliminary htakes⟩
      · exact absurd ⟨p, pairs, hc, hfit.size_primal, hfit.size_dual⟩ hruns
    obtain ⟨hending, hwrites⟩ := hrefused (.admm narrator clock order) refusal path
    obtain ⟨hending', hwrites'⟩ := hrefused (.admm narrator' clock' order) refusal' path'
    exact .of_writes (hending'.trans hending.symm) (hwrites'.trans hwrites.symm)

/-! ## The text of a call -/

variable {clock clock' : Clock Float} {refusal refusal' : String → Option String} {opened : Bool}
  {lines : List String}

/-- **What a call tells,** and whether it opens its log: the transcript of its run, if it gets
as far as a run, and otherwise nothing. -/
inductive Tells (clock : Clock Float) (refusal : String → Option String) (c : Call Float)
    (primal dual : Array Float) : Bool → List String → Prop
  | refused : (∀ p pairs, (c.loaned primal dual).Marshals p pairs →
      ¬ Session.Fit (.standard clock) p primal dual) → Tells clock refusal c primal dual false []
  | notSetUp {p : Program Float} {pairs : List (Assignment Float)} {e : SetupError} :
      (c.loaned primal dual).Marshals p pairs → Session.Fit (.standard clock) p primal dual →
      Solver.setup p.P p.q.data p.A p.l.data p.u.data (.ofAssignments pairs) .natural =
        .ok (.error e) →
      Tells clock refusal c primal dual (Session.opensLog refusal c.logPath) []
  | ran {p : Program Float} {pairs : List (Assignment Float)} {s : Solver Float}
      {stage : Stage Float Unit} {lines : List String} :
      (c.loaned primal dual).Marshals p pairs → Session.Fit (.standard clock) p primal dual →
      Solver.setup p.P p.q.data p.A p.l.data p.u.data (.ofAssignments pairs) .natural =
        .ok (.ok s) →
      s.run clock = .ok stage →
      Progress.transcript s.problem s.settings clock stage.events = .ok lines →
      Tells clock refusal c primal dual (Session.opensLog refusal c.logPath) lines

/-- Every call tells something, if only nothing. -/
theorem exists_tells (clock : Clock Float) (refusal : String → Option String) (c : Call Float)
    (primal dual : Array Float) :
    ∃ opened lines, c.Tells clock refusal primal dual opened lines := by
  by_cases hruns : ∃ p pairs, (c.loaned primal dual).Marshals p pairs ∧
      Session.Fit (.standard clock) p primal dual
  · obtain ⟨p, pairs, hc, hfit⟩ := hruns
    have hroom := hc.1.hasRoom
    obtain ⟨r, hsetup, hstarts⟩ := Solver.setup_ensures_starts hroom.quadratic.room
      hroom.linear.room p.q.data p.l.data p.u.data (Settings.ofAssignments pairs) .natural
    cases r with
    | error e => exact ⟨_, _, .notSetUp hc hfit hsetup⟩
    | ok s =>
      obtain ⟨hstart, -, -⟩ := hstarts s rfl
      obtain ⟨stage, hrun, -⟩ := Solver.invariant_fits.run_ensures hstart.fits clock
      have htell : Progress.Tellable s.settings := by
        rw [hstart.settings_eq]
        exact .of_beq (timeLimit_beq pairs)
      obtain ⟨lines, hlines, -⟩ := htell.transcript_ensures s.problem clock stage.events
      exact ⟨_, _, .ran hc hfit hsetup hrun hlines⟩
  · exact ⟨false, [], .refused fun p pairs hc hfit => hruns ⟨p, pairs, hc, hfit⟩⟩

/-- **On another clock and with another path** for the log a call tells the same but for the
times. -/
theorem Tells.alike (h : c.Tells clock refusal primal dual opened lines) (clock' : Clock Float)
    (refusal' : String → Option String) (path : String) :
    ∃ opened' lines', Tells clock' refusal' { c with logPath := path } primal dual opened' lines' ∧
      List.Forall₂ Progress.AlikeButTimes lines lines' := by
  cases h with
  | refused hnone =>
    exact ⟨_, _, .refused fun p pairs hc hfit => hnone p pairs hc
      ⟨rfl, hfit.size_primal, hfit.size_dual⟩, .nil⟩
  | notSetUp hc hfit hsetup =>
    exact ⟨_, _, .notSetUp hc ⟨rfl, hfit.size_primal, hfit.size_dual⟩ hsetup, .nil⟩
  | @ran p pairs s stage _ hc hfit hsetup hrun hlines =>
    have huntimed : s.settings.Untimed := by
      rw [(Solver.starts_of_setup hsetup).settings_eq]
      exact Progress.untimed_of_beq (timeLimit_beq pairs)
    obtain ⟨lines', hlines', halike⟩ := Progress.transcript_clock hlines clock'
    exact ⟨_, _, .ran hc ⟨rfl, hfit.size_primal, hfit.size_dual⟩ hsetup
      ((Solver.run_clock huntimed clock clock').trans hrun) hlines', halike⟩

/-- **What a call tells is delivered.** -/
theorem Tells.delivers (h : c.Tells clock refusal primal dual opened lines) :
    History.Delivers (c.solve (.standard clock) refusal primal dual).steps c.logPath opened
      (Progress.text lines) := by
  have hdelivers := c.solve_delivers (.standard clock) refusal primal dual
  cases h with
  | refused hnone =>
    rcases hdelivers with ⟨-, hnothing⟩ | ⟨p, pairs, hc, hfit, -⟩
    · exact hnothing
    · exact absurd hfit (hnone p pairs hc)
  | @notSetUp p pairs e hc hfit hsetup =>
    rcases hdelivers with ⟨hnone, -⟩ | ⟨p', pairs', hc', -, hdelivers⟩
    · exact absurd hfit (hnone p pairs hc)
    · obtain ⟨rfl, rfl⟩ := hc.unique hc'
      rwa [Backend.texts_of_not_setUp hsetup] at hdelivers
  | @ran p pairs s stage _ hc hfit hsetup hrun hlines =>
    rcases hdelivers with ⟨hnone, -⟩ | ⟨p', pairs', hc', -, hdelivers⟩
    · exact absurd hfit (hnone p pairs hc)
    · obtain ⟨rfl, rfl⟩ := hc.unique hc'
      rw [Backend.texts_of_run hsetup hrun hlines, joined, List.foldl_cons, List.foldl_nil,
        ByteArray.empty_append] at hdelivers
      exact hdelivers

end Call

namespace WellOnDoubles

/-- Two runs without a word. -/
def quiet : List Solver.Showing := [⟨false, clock, id⟩, ⟨false, clock, id⟩]

/-- Two runs aloud, the second into a stream that refuses the first line and the flush. -/
def aloud : List Solver.Showing :=
  [⟨true, clock, id⟩, ⟨true, ⟨1, fun n => n, 2⟩, fun told =>
    { told with target := .stream, outlets := { stream := { refusals := [some "", some ""] } } }⟩]

end WellOnDoubles

end SplitQP
