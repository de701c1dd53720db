import SplitQP.Proofs.Call.Passage
/-!
# Output buffers are left alone or filled

A backend that hands over solutions of the program's sizes (`Backend.Sized`)
decides what becomes of the output buffers and of the status, for a session
and for a call alike (`Backend.Decides`): both buffers are as they were, or
both are filled with its solution, and the status says how far it came.
Both go back to what a backend comes to when it is set up once and solves
once (`Backend.drive`).
-/

namespace SplitQP

open Checked

variable {α : Type}

namespace Backend

/-- **What becomes of a program in a backend:** the status, and the solution if
there is one. It is set up once, and solves once if that succeeds. -/
def drive (b : Backend α) (p : Program α) (settings : Settings α) (hasLog : Bool) :
    Checked (Int × Option (Array α × Array α)) := do
  match ← (b.setup p settings hasLog).ending with
  | .error _ => return (setupErrorCode, none)
  | .ok w =>
    let (w, exit) ← (b.solve w).ending
    return if exit = 0 then (b.status w, b.solution w) else (exit, none)

/-- What the backend says meanwhile: when it is set up, and when it solves if that
succeeds. -/
def said (b : Backend α) (p : Program α) (settings : Settings α) (hasLog : Bool) :
    List Utterance :=
  (b.setup p settings hasLog).steps ++
    match (b.setup p settings hasLog).ending with
    | .ok (.ok w) => (b.solve w).steps
    | _ => []

/-- The solution it comes to, if there is one. -/
def solution? (b : Backend α) (p : Program α) (settings : Settings α) (hasLog : Bool) :
    Option (Array α × Array α) :=
  match b.drive p settings hasLog with
  | .ok (_, solution) => solution
  | .error _ => none

/-- **Solutions have the sizes of the program.** -/
def Sized (b : Backend α) (p : Program α) (settings : Settings α) (hasLog : Bool) : Prop :=
  ∀ x y, b.solution? p settings hasLog = some (x, y) → x.size = p.n ∧ y.size = p.m

variable {b : Backend α} {p : Program α} {settings : Settings α} {hasLog : Bool}
  {w w' : b.Workspace}

theorem drive_of_setup_fault {f : Fault} (h : (b.setup p settings hasLog).ending = .error f) :
    b.drive p settings hasLog = .error f := by
  rw [drive, h, error_bind]

theorem drive_of_setup_error {code : Int}
    (h : (b.setup p settings hasLog).ending = .ok (.error code)) :
    b.drive p settings hasLog = .ok (setupErrorCode, none) := by
  rw [drive, h]
  rfl

theorem drive_of_solve_fault {f : Fault} (hsetup : (b.setup p settings hasLog).ending = .ok (.ok w))
    (hsolve : (b.solve w).ending = .error f) : b.drive p settings hasLog = .error f := by
  rw [drive, hsetup]
  dsimp only [ok_bind]
  rw [hsolve, error_bind]

theorem drive_of_solve {exit : Int} (hsetup : (b.setup p settings hasLog).ending = .ok (.ok w))
    (hsolve : (b.solve w).ending = .ok (w', exit)) :
    b.drive p settings hasLog =
      .ok (if exit = 0 then (b.status w', b.solution w') else (exit, none)) := by
  rw [drive, hsetup]
  dsimp only [ok_bind]
  rw [hsolve]
  rfl

theorem drive_of_setup (h : (b.setup p settings hasLog).ending = .ok (.ok w)) :
    b.drive p settings hasLog = (b.solve w).ending.map fun r =>
      if r.2 = 0 then (b.status r.1, b.solution r.1) else (r.2, none) := by
  cases hsolve : (b.solve w).ending with
  | error f => exact drive_of_solve_fault h hsolve
  | ok r => exact drive_of_solve h hsolve

theorem said_of_setup (h : (b.setup p settings hasLog).ending = .ok (.ok w)) :
    b.said p settings hasLog = (b.setup p settings hasLog).steps ++ (b.solve w).steps := by
  rw [said, h]

/-- **There is a solution** exactly where the backend is set up, solves with exit
flag zero, and has one. -/
theorem solution?_eq_some_iff {x y : Array α} :
    b.solution? p settings hasLog = some (x, y) ↔
      ∃ w w', (b.setup p settings hasLog).ending = .ok (.ok w) ∧
        (b.solve w).ending = .ok (w', 0) ∧ b.solution w' = some (x, y) := by
  constructor
  · intro h
    cases hsetup : (b.setup p settings hasLog).ending with
    | error f =>
      rw [solution?, drive_of_setup_fault hsetup] at h
      cases h
    | ok r =>
      cases r with
      | error code =>
        rw [solution?, drive_of_setup_error hsetup] at h
        cases h
      | ok w =>
        cases hsolve : (b.solve w).ending with
        | error f =>
          rw [solution?, drive_of_solve_fault hsetup hsolve] at h
          cases h
        | ok r =>
          obtain ⟨w', exit⟩ := r
          rw [solution?, drive_of_solve hsetup hsolve] at h
          split_ifs at h with hexit
          subst hexit
          exact ⟨w, w', rfl, hsolve, h⟩
  · rintro ⟨w, w', hsetup, hsolve, hsolution⟩
    rw [solution?, drive_of_solve hsetup hsolve]
    exact hsolution

/-- Where a session fits, its buffers are as large as solutions are. -/
theorem Sized.of_fit {primal dual : Array α} (hb : b.Sized p settings hasLog)
    (hfit : Session.Fit b p primal dual) (x y : Array α)
    (h : b.solution? p settings hasLog = some (x, y)) :
    x.size = primal.size ∧ y.size = dual.size := by
  rw [hfit.size_primal, hfit.size_dual]
  exact hb x y h

end Backend

/-! ## Sessions -/

namespace Session

variable {b : Backend α} {p : Program α} {settings : Settings α} {hasLog : Bool}
  {primal dual : Array α}

theorem heard_working (w : b.Workspace) (rest : History α) :
    History.heard (working b p settings hasLog w rest) =
      ((b.setup p settings hasLog).steps ++ (b.solve w).steps).map (hear hasLog) ++
        History.heard rest := by
  have hmoved : ∀ k : History α, History.heard
      (.moved .configured .ready :: .happened .workspaceReady :: k) = History.heard k :=
    fun _ => rfl
  rw [working, History.heard_append, hmoved, History.heard_append, History.heard_hear,
    History.heard_hear, List.map_append, List.append_assoc]

theorem writes_working (w : b.Workspace) (rest : History α) :
    History.writes (working b p settings hasLog w rest) = History.writes rest := by
  have hmoved : ∀ k : History α, History.writes
      (.moved .configured .ready :: .happened .workspaceReady :: k) = History.writes k :=
    fun _ => rfl
  rw [working, History.writes_append, hmoved, History.writes_append, History.writes_hear,
    History.writes_hear, List.nil_append, List.nil_append]

/-- **Setting up and solving** come to what the backend comes to, write its solution,
and let it say what it has to say once. -/
theorem solve_outputs (hfit : Fit b p primal dual) (hb : b.Sized p settings hasLog) :
    (solve b p settings hasLog primal dual).ending.map Prod.fst =
        (b.drive p settings hasLog).map Prod.fst ∧
      History.writes (solve b p settings hasLog primal dual).steps =
        Write.ofSolution (b.solution? p settings hasLog) ∧
      History.heard (solve b p settings hasLog primal dual).steps =
        (b.said p settings hasLog).map (hear hasLog) := by
  have hsolving := solving_solve b p settings hasLog primal dual
  generalize solve b p settings hasLog primal dual = course at hsolving
  -- solutions are as large as the buffers, so handing one over never fails
  have hsizes : ∀ {w w'}, (b.setup p settings hasLog).ending = .ok (.ok w) →
      (b.solve w).ending = .ok (w', 0) → ∀ x y, b.solution w' = some (x, y) →
        x.size = primal.size ∧ y.size = dual.size := by
    intro w w' hsetup hsolve x y hxy
    exact hb.of_fit hfit x y (Backend.solution?_eq_some_iff.mpr ⟨w, w', hsetup, hsolve, hxy⟩)
  have hquiet : ∀ solution, History.heard (handOver primal dual solution).steps = [] :=
    fun solution => List.filter_eq_nil_iff.mpr fun s hs =>
      Bool.eq_false_iff.mp (Step.readings_of_write (handOver_takes solution s hs)).1
  rw [Backend.solution?]
  cases hsolving with
  | setupFaulted hsetup =>
    rw [Backend.drive_of_setup_fault hsetup, Backend.said, hsetup]
    exact ⟨rfl, History.writes_hear _ _, by rw [History.heard_hear, List.append_nil]⟩
  | notSetUp hsetup =>
    rw [Backend.drive_of_setup_error hsetup, Backend.said, hsetup, History.writes_append,
      History.heard_append, History.writes_hear, History.heard_hear, List.append_nil]
    exact ⟨rfl, rfl, List.append_nil _⟩
  | solveFaulted hsetup hsolve =>
    rw [Backend.drive_of_solve_fault hsetup hsolve, Backend.said_of_setup hsetup, writes_working,
      heard_working]
    exact ⟨rfl, rfl, List.append_nil _⟩
  | brokeOff hsetup hsolve hexit =>
    rw [Backend.drive_of_solve hsetup hsolve, if_neg hexit, Backend.said_of_setup hsetup,
      writes_working, heard_working]
    exact ⟨rfl, rfl, List.append_nil _⟩
  | @solved w w' hsetup hsolve hfits =>
    have hdone : History.heard [.moved .ready .solved, .happened (.solved (b.status w')),
        .happened .workspaceReleased] = ([] : History α) := rfl
    have hwrites := (handOver_of_fits (hsizes hsetup hsolve)).2
    rw [Backend.drive_of_solve hsetup hsolve, if_pos rfl, Backend.said_of_setup hsetup,
      writes_working, heard_working, History.writes_append, History.heard_append, hwrites,
      hquiet, hdone]
    exact ⟨rfl, List.append_nil _, List.append_nil _⟩
  | @misfit w w' f hsetup hsolve hfits =>
    rw [(handOver_of_fits (hsizes hsetup hsolve)).1] at hfits
    cases hfits

theorem outputs_closing (p : Program α) (hasLog : Bool) (state : SessionState) :
    History.writes (closing p hasLog state) = [] ∧ History.heard (closing p hasLog state) = [] := by
  have hwrites : ∀ k : History α, History.writes (.happened .settingsReleased :: k) =
      History.writes k := fun _ => rfl
  have hheard : ∀ k : History α, History.heard (.happened .settingsReleased :: k) =
      History.heard k := fun _ => rfl
  rw [closing, hwrites, hheard, History.writes_append, History.heard_append,
    History.writes_released, History.heard_released]
  cases hasLog with
  | false => exact ⟨rfl, rfl⟩
  | true => exact ⟨rfl, rfl⟩

variable {refusal : String → Option String} {path : String} (state : SessionState)

/-- **A session that begins** comes to what the backend comes to. -/
theorem run_outputs (hfit : Fit b p primal dual)
    (hb : b.Sized p settings (opensLog refusal path)) :
    (run b refusal state p settings path primal dual).ending =
        (b.drive p settings (opensLog refusal path)).map Prod.fst ∧
      History.writes (run b refusal state p settings path primal dual).steps =
        Write.ofSolution (b.solution? p settings (opensLog refusal path)) ∧
      History.heard (run b refusal state p settings path primal dual).steps =
        (b.said p settings (opensLog refusal path)).map (hear (opensLog refusal path)) := by
  obtain ⟨hending, hwrites, hheard⟩ := solve_outputs hfit hb
  obtain ⟨-, -, hopen⟩ := openLog_ensures (α := α) refusal path
  have hopenWrites : History.writes (openLog (α := α) refusal path).steps = [] :=
    List.filterMap_eq_nil_iff.mpr fun s hs => (hopen s hs).1
  have hopenHeard : History.heard (openLog (α := α) refusal path).steps = [] :=
    List.filter_eq_nil_iff.mpr fun s hs => Bool.eq_false_iff.mp (hopen s hs).2.1
  have hmoved : ∀ k : History α, History.writes (.moved state .configured :: k) =
      History.writes k ∧ History.heard (.moved state .configured :: k) = History.heard k :=
    fun _ => ⟨rfl, rfl⟩
  rw [run_of_fit hfit]
  cases hsolve : (solve b p settings (opensLog refusal path) primal dual).ending with
  | error f =>
    rw [hsolve] at hending
    dsimp only
    rw [(hmoved _).1, (hmoved _).2]
    simp only [History.writes_append, History.heard_append, hopenWrites, hopenHeard, hwrites,
      hheard, History.writes_released, History.heard_released, List.nil_append, List.append_nil,
      and_true]
    exact hending
  | ok r =>
    rw [hsolve] at hending
    dsimp only
    rw [(hmoved _).1, (hmoved _).2]
    simp only [History.writes_append, History.heard_append, hopenWrites, hopenHeard, hwrites,
      hheard, (outputs_closing p _ _).1, (outputs_closing p _ _).2, List.nil_append,
      List.append_nil, and_true]
    exact hending

/-- A session that cannot begin writes nothing and hears nothing. -/
theorem run_outputs_of_unfit (hfit : ¬ Fit b p primal dual) :
    (run b refusal state p settings path primal dual).ending = .ok setupErrorCode ∧
      History.writes (run b refusal state p settings path primal dual).steps = [] ∧
      History.heard (run b refusal state p settings path primal dual).steps = [] := by
  obtain ⟨why, hrun⟩ := run_of_unfit refusal path hfit settings state
  rw [hrun]
  exact ⟨rfl, (outputs_closing p false .failed).1, (outputs_closing p false .failed).2⟩

end Session

/-! ## What a backend decides -/

namespace History

/-- Both output buffers are as they were. -/
structure LeavesOutputs (primal dual : Array α) (h : History α) : Prop where
  writes_eq : writes h = []
  primal_eq : History.primal primal h = primal
  dual_eq : History.dual dual h = dual

/-- **Both output buffers are overwritten in full,** once each. -/
structure FillsOutputs (primal dual x y : Array α) (h : History α) : Prop where
  writes_eq : writes h = [.primal x, .dual y]
  primal_eq : History.primal primal h = x
  dual_eq : History.dual dual h = y
  size_x : x.size = primal.size
  size_y : y.size = dual.size

variable {primal dual x y : Array α} {h : History α}

theorem leavesOutputs_of_writes (hwrites : writes h = []) : h.LeavesOutputs primal dual where
  writes_eq := hwrites
  primal_eq := by rw [primal_eq_foldl, hwrites, List.foldl_nil]
  dual_eq := by rw [dual_eq_foldl, hwrites, List.foldl_nil]

theorem fillsOutputs_of_writes (hwrites : writes h = [.primal x, .dual y])
    (hx : x.size = primal.size) (hy : y.size = dual.size) :
    h.FillsOutputs primal dual x y where
  writes_eq := hwrites
  primal_eq := by
    rw [primal_eq_foldl, hwrites]
    rfl
  dual_eq := by
    rw [dual_eq_foldl, hwrites]
    rfl
  size_x := hx
  size_y := hy

/-- **Writing a solution fills both,** if it has their sizes, and writing none leaves both. -/
theorem outputs_of_writes {v : Option (Array α × Array α)} (hwrites : writes h = Write.ofSolution v)
    (hv : ∀ x y, v = some (x, y) → x.size = primal.size ∧ y.size = dual.size) :
    (h.LeavesOutputs primal dual ∨ ∃ x y, h.FillsOutputs primal dual x y) ∧
      ∀ x y, h.FillsOutputs primal dual x y ↔ v = some (x, y) := by
  cases v with
  | none =>
    refine ⟨.inl (leavesOutputs_of_writes hwrites), fun x y => ⟨fun hfills => ?_, fun hv => ?_⟩⟩
    · cases hwrites.symm.trans hfills.writes_eq
    · cases hv
  | some v =>
    obtain ⟨x, y⟩ := v
    obtain ⟨hx, hy⟩ := hv x y rfl
    have hfills := fillsOutputs_of_writes hwrites hx hy
    refine ⟨.inr ⟨x, y, hfills⟩, fun x' y' => ⟨fun hfills' => ?_, fun hv => ?_⟩⟩
    · cases hwrites.symm.trans hfills'.writes_eq
      rfl
    · cases hv
      exact hfills

end History

/-- **The backend decides** what becomes of the output buffers and of the status. -/
structure Backend.Decides (b : Backend α) (p : Program α) (settings : Settings α) (hasLog : Bool)
    (primal dual : Array α) (steps : History α) (status : Checked Int) : Prop where
  /-- All or nothing. -/
  whole : steps.LeavesOutputs primal dual ∨ ∃ x y, steps.FillsOutputs primal dual x y
  /-- All exactly where there is a solution. -/
  fills_iff : ∀ x y, steps.FillsOutputs primal dual x y ↔ Session.Fit b p primal dual ∧
    ∃ w w', (b.setup p settings hasLog).ending = .ok (.ok w) ∧
      (b.solve w).ending = .ok (w', 0) ∧ b.solution w' = some (x, y)
  /-- A session that cannot begin fails, and the backend is not heard of. -/
  of_unfit : ¬ Session.Fit b p primal dual → status = .ok (-1) ∧ History.heard steps = []
  of_setup_error : Session.Fit b p primal dual → ∀ code,
    (b.setup p settings hasLog).ending = .ok (.error code) → status = .ok (-1)
  of_setup_fault : Session.Fit b p primal dual → ∀ f,
    (b.setup p settings hasLog).ending = .error f → status = .error f
  /-- Once it is set up, the status is its exit flag, and its own where that is zero. -/
  of_setup : Session.Fit b p primal dual → ∀ w,
    (b.setup p settings hasLog).ending = .ok (.ok w) →
      status = (b.solve w).ending.map fun r => if r.2 = 0 then b.status r.1 else r.2
  /-- The backend says once what it has to say. -/
  heard_eq : Session.Fit b p primal dual →
    History.heard steps = (b.said p settings hasLog).map (Session.hear hasLog)

namespace Backend

variable {b : Backend α} {p : Program α} {settings : Settings α} {hasLog : Bool}
  {primal dual : Array α} {steps : History α} {status : Checked Int}

/-- What it comes to decides the rest. -/
theorem Decides.of_drive (hb : b.Sized p settings hasLog)
    (hfit : Session.Fit b p primal dual →
      status = (b.drive p settings hasLog).map Prod.fst ∧
        History.writes steps = Write.ofSolution (b.solution? p settings hasLog) ∧
        History.heard steps = (b.said p settings hasLog).map (Session.hear hasLog))
    (hunfit : ¬ Session.Fit b p primal dual →
      status = .ok setupErrorCode ∧ History.writes steps = [] ∧ History.heard steps = []) :
    b.Decides p settings hasLog primal dual steps status where
  whole := by
    by_cases h : Session.Fit b p primal dual
    · exact (History.outputs_of_writes (hfit h).2.1 (hb.of_fit h)).1
    · exact .inl (History.leavesOutputs_of_writes (hunfit h).2.1)
  fills_iff x y := by
    rw [← solution?_eq_some_iff]
    by_cases h : Session.Fit b p primal dual
    · rw [(History.outputs_of_writes (hfit h).2.1 (hb.of_fit h)).2 x y, and_iff_right h]
    · refine iff_of_false (fun hfills => ?_) fun hsolution => h hsolution.1
      have hwrites := (hunfit h).2.1
      rw [hfills.writes_eq] at hwrites
      cases hwrites
  of_unfit h := ⟨(hunfit h).1, (hunfit h).2.2⟩
  of_setup_error h code hsetup := by
    rw [(hfit h).1, drive_of_setup_error hsetup]
    rfl
  of_setup_fault h f hsetup := by
    rw [(hfit h).1, drive_of_setup_fault hsetup]
    rfl
  of_setup h w hsetup := by
    rw [(hfit h).1, drive_of_setup hsetup]
    cases (b.solve w).ending with
    | error f => rfl
    | ok r =>
      obtain ⟨w', exit⟩ := r
      simp only [Except.map]
      split <;> rfl
  heard_eq h := (hfit h).2.2

/-- **Codes that tell of a solution:** if the backend has a solution exactly where it comes
to one of them, the outputs are filled exactly where the status is one of them. -/
theorem Decides.fills_iff_mem (h : b.Decides p settings hasLog primal dual steps status)
    {codes : List Int} (hfailed : (-1 : Int) ∉ codes)
    (hcodes : ∀ w w' exit, (b.setup p settings hasLog).ending = .ok (.ok w) →
      (b.solve w).ending = .ok (w', exit) →
        (exit = 0 ∧ (b.solution w').isSome ↔
          (if exit = 0 then b.status w' else exit) ∈ codes)) :
    (∃ x y, steps.FillsOutputs primal dual x y) ↔ ∃ code, status = .ok code ∧ code ∈ codes := by
  constructor
  · rintro ⟨x, y, hfills⟩
    obtain ⟨hfit, w, w', hsetup, hsolve, hsolution⟩ := (h.fills_iff x y).mp hfills
    refine ⟨_, (h.of_setup hfit w hsetup).trans (congrArg (Except.map _) hsolve), ?_⟩
    exact (hcodes w w' 0 hsetup hsolve).mp ⟨rfl, Option.isSome_of_eq_some hsolution⟩
  · rintro ⟨code, hcode, hmem⟩
    -- where nothing was solved the status is minus one, which is none of the codes
    have hcontra : status ≠ .ok (-1) := by
      rintro hminus
      rw [hminus] at hcode
      cases hcode
      exact hfailed hmem
    by_cases hfit : Session.Fit b p primal dual
    · cases hsetup : (b.setup p settings hasLog).ending with
      | error f =>
        rw [h.of_setup_fault hfit f hsetup] at hcode
        cases hcode
      | ok r =>
        cases r with
        | error e => exact absurd (h.of_setup_error hfit e hsetup) hcontra
        | ok w =>
          have hstatus := h.of_setup hfit w hsetup
          cases hsolve : (b.solve w).ending with
          | error f =>
            rw [hstatus, hsolve] at hcode
            cases hcode
          | ok r =>
            obtain ⟨w', exit⟩ := r
            rw [hstatus, hsolve] at hcode
            cases hcode
            obtain ⟨rfl, hsome⟩ := (hcodes w w' exit hsetup hsolve).mpr hmem
            obtain ⟨⟨x, y⟩, hsolution⟩ := Option.isSome_iff_exists.mp hsome
            exact ⟨x, y, (h.fills_iff x y).mpr ⟨hfit, w, w', hsetup, hsolve, hsolution⟩⟩
    · exact absurd (h.of_unfit hfit).1 hcontra

/-! ### How often a backend is asked -/

/-- What a counted backend says when it is set up. -/
def settingUp : Remark := ⟨.debug, "setting up"⟩

/-- What a counted backend says when it solves. -/
def solving : Remark := ⟨.debug, "solving"⟩

/-- **The same backend, counted:** it says that it is set up and that it solves, and
nothing else. -/
def counted (b : Backend α) : Backend α where
  Workspace := b.Workspace
  widths := b.widths
  setup p settings hasLog := ⟨[.remark settingUp], (b.setup p settings hasLog).ending⟩
  solve w := ⟨[.remark solving], (b.solve w).ending⟩
  status := b.status
  solution := b.solution

theorem Sized.counted (h : b.Sized p settings hasLog) : b.counted.Sized p settings hasLog := by
  intro x y hxy
  obtain ⟨w, w', hsetup, hsolve, hsolution⟩ := solution?_eq_some_iff.mp hxy
  exact h x y (solution?_eq_some_iff.mpr ⟨w, w', hsetup, hsolve, hsolution⟩)

/-- **Set up once at most, and asked to solve once exactly where that succeeded.** -/
structure Counts (b : Backend α) (p : Program α) (settings : Settings α) (hasLog : Bool)
    (primal dual : Array α) (steps : History α) : Prop where
  of_unfit : ¬ Session.Fit b p primal dual → History.heard steps = []
  of_not_setup : Session.Fit b p primal dual →
    (∀ w, (b.setup p settings hasLog).ending ≠ .ok (.ok w)) →
      History.heard steps = [.remarked settingUp]
  of_setup : Session.Fit b p primal dual → ∀ w,
    (b.setup p settings hasLog).ending = .ok (.ok w) →
      History.heard steps = [.remarked settingUp, .remarked solving]

/-- What is heard of a counted backend. -/
theorem Decides.counts
    (h : b.counted.Decides p settings hasLog primal dual steps status) :
    b.Counts p settings hasLog primal dual steps where
  of_unfit hunfit := (h.of_unfit fun hfit => hunfit ⟨hfit.widths_eq, hfit.size_primal,
    hfit.size_dual⟩).2
  of_not_setup hfit hsetup := by
    rw [h.heard_eq ⟨hfit.widths_eq, hfit.size_primal, hfit.size_dual⟩, said]
    split
    · exact absurd ‹_› (hsetup _)
    · rfl
  of_setup hfit w hsetup := by
    rw [h.heard_eq ⟨hfit.widths_eq, hfit.size_primal, hfit.size_dual⟩,
      said_of_setup (b := b.counted) hsetup]
    rfl

end Backend

/-- **In a session** the backend decides. -/
theorem Session.run_decides {b : Backend α} {p : Program α} {settings : Settings α}
    {refusal : String → Option String} {path : String}
    (hb : b.Sized p settings (opensLog refusal path)) (state : SessionState)
    (primal dual : Array α) :
    b.Decides p settings (opensLog refusal path) primal dual
      (run b refusal state p settings path primal dual).steps
      (run b refusal state p settings path primal dual).ending :=
  .of_drive hb (fun hfit => run_outputs state hfit hb) (run_outputs_of_unfit state)

/-! ## Calls -/

namespace Call

variable [RoundingScalar α] {c : Call α} {b : Backend α} {refusal : String → Option String}
  {primal dual : Array α}

/-- **In a call that can be read** the backend decides. -/
theorem solve_decides {p : Program α} {pairs : List (Assignment α)}
    (hc : (c.loaned primal dual).Marshals p pairs)
    (hb : b.Sized p (.ofAssignments pairs) (Session.opensLog refusal c.logPath)) :
    b.Decides p (.ofAssignments pairs) (Session.opensLog refusal c.logPath) primal dual
      (c.solve b refusal primal dual).steps
      ((c.solve b refusal primal dual).ending.map Outcome.status) := by
  rcases c.solve_refused_or_ran b refusal primal dual with ⟨hunfit, hending, htakes⟩ | hran
  · rw [hending]
    exact .of_drive hb (fun hfit => absurd hfit (hunfit p pairs hc)) fun _ =>
      ⟨rfl, History.writes_of_preliminary htakes, History.heard_of_preliminary htakes⟩
  · obtain ⟨p', pairs', before, after, hc', hfit, hhosts, hsolve⟩ := hran
    obtain ⟨rfl, rfl⟩ := hc.unique hc'
    obtain ⟨hending, hwrites, hheard⟩ := Session.run_outputs .uninitialized hfit hb
    rw [hsolve]
    refine .of_drive hb (fun _ => ⟨?_, ?_, ?_⟩) fun h => absurd hfit h
    · rw [hending]
      cases b.drive p (.ofAssignments pairs) (Session.opensLog refusal c.logPath) with
      | error f => rfl
      | ok r => rfl
    · rw [History.writes_append, History.writes_append, hwrites,
        History.writes_of_preliminary hhosts.preliminary_before,
        History.writes_of_preliminary hhosts.preliminary_after, List.nil_append, List.append_nil]
    · rw [History.heard_append, History.heard_append, hheard,
        History.heard_of_preliminary hhosts.preliminary_before,
        History.heard_of_preliminary hhosts.preliminary_after, List.nil_append, List.append_nil]

/-- **A call that cannot be read** fails, leaves the outputs alone, and no backend is
heard of. -/
theorem solve_unread (b : Backend α) (refusal : String → Option String)
    (hc : ∀ p pairs, ¬ (c.loaned primal dual).Marshals p pairs) :
    (c.solve b refusal primal dual).ending = .ok ⟨-1, false⟩ ∧
      History.LeavesOutputs primal dual (c.solve b refusal primal dual).steps ∧
      History.heard (c.solve b refusal primal dual).steps = [] := by
  rcases c.solve_refused_or_ran b refusal primal dual with ⟨-, hending, htakes⟩ | hran
  · exact ⟨hending, History.leavesOutputs_of_writes (History.writes_of_preliminary htakes),
      History.heard_of_preliminary htakes⟩
  · obtain ⟨p, pairs, _, _, hmarshals, -⟩ := hran
    exact absurd hmarshals (hc p pairs)

end Call

end SplitQP
