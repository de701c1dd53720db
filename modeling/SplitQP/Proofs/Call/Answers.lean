import SplitQP.Proofs.Call.Course
import SplitQP.Proofs.Admm.Progress
import SplitQP.Call.Foreign
import SplitQP.Call.Narration
/-!
# Every call is answered

A session never faults with a backend that is safe for its program
(`Backend.Safe`): one that sets up, solves, and hands over vectors of the
program's lengths. The solver of this library is safe for every program
that a call can be made into (`Backend.safe_admm`), so every call comes to
its outcome, also one from outside.
-/

namespace SplitQP

open Checked

/-! ## Sessions -/

section Session

variable {α : Type} {b : Backend α} {p : Program α} {settings : Settings α}
  {I : b.Workspace → Prop}

/-- **Safe for a program:** setting up ends in a workspace as `I` says or with a
code, and solving in such a one ends, with vectors of the right lengths. -/
structure Backend.Safe (b : Backend α) (p : Program α) (settings : Settings α)
    (I : b.Workspace → Prop) : Prop where
  setup : ∀ hasLog, Ensures (b.setup p settings hasLog).ending fun r => ∀ w, r = .ok w → I w
  solve : ∀ w, I w → Ensures (b.solve w).ending fun r =>
    ∀ x y, b.solution r.1 = some (x, y) → x.size = p.n ∧ y.size = p.m

namespace Session

open Course

theorem handOver_ensures {primal dual : Array α} {solution : Option (Array α × Array α)}
    (h : ∀ x y, solution = some (x, y) → x.size = primal.size ∧ y.size = dual.size) :
    Ensures (handOver primal dual solution).ending fun _ => True := by
  cases solution with
  | none => exact .ok trivial
  | some v =>
    obtain ⟨x, y⟩ := v
    obtain ⟨hx, hy⟩ := h x y rfl
    rw [handOver, fill, fill, require_eq_ok hx, require_eq_ok hy]
    exact .ok trivial

/-- **Setting up and solving end.** -/
theorem solve_ensures (h : b.Safe p settings I) (hasLog : Bool) {primal dual : Array α}
    (hprimal : primal.size = p.n) (hdual : dual.size = p.m) :
    Ensures (solve b p settings hasLog primal dual).ending fun _ => True := by
  rw [solve]
  refine ensures_bind (h.setup hasLog) fun r hr => ?_
  cases r with
  | error code => exact .ok trivial
  | ok w =>
    refine ensures_then rfl (ensures_then rfl ?_)
    refine ensures_bind (h.solve w (hr w rfl)) ?_
    rintro ⟨w', exit⟩ hsolution
    dsimp only
    split
    · refine ensures_bind (handOver_ensures fun x y hxy => ?_) fun _ _ => .ok trivial
      rw [hprimal, hdual]
      exact hsolution x y hxy
    · exact .ok trivial

/-- **A session ends.** -/
theorem run_ensures (h : b.Safe p settings I) (refusal : String → Option String)
    (state : SessionState) (logPath : String) (primal dual : Array α) :
    Ensures (run b refusal state p settings logPath primal dual).ending fun _ => True := by
  have hclose : ∀ (hasLog : Bool) (state : SessionState) (status : Int),
      Ensures (do close p hasLog state; return status : Course (Step α) Int).ending
        fun _ => True := by
    intro hasLog state status
    cases hasLog <;> exact .ok trivial
  rw [run]
  refine ensures_then rfl ?_
  cases hfit : unfit? b p primal dual with
  | some why => exact ensures_then rfl (ensures_then rfl (hclose _ _ _))
  | none =>
    -- the session has looked at the lengths itself, and only goes on where they fit
    have hsizes : primal.size = p.n ∧ dual.size = p.m := by
      rw [unfit?] at hfit
      split_ifs at hfit with hwidths hsizes
      exact not_or.mp hsizes |>.imp not_not.mp not_not.mp
    have hlog : Ensures (openLog (α := α) refusal logPath).ending fun _ => True := by
      rw [openLog]
      split <;> exact .ok trivial
    refine ensures_bind hlog fun hasLog _ => ?_
    refine ensures_bind (ensures_onFault (solve_ensures h hasLog hsizes.1 hsizes.2) _) ?_
    rintro ⟨status, state⟩ -
    exact hclose _ _ _

end Session
end Session

/-! ## Calls -/

section Calls

variable {α : Type} [RoundingScalar α] {b : Backend α}

/-- **Safe for calls:** for every program with room, and all settings a caller can
name. -/
def Backend.SafeForCalls (b : Backend α) : Prop :=
  ∀ (p : Program α) (pairs : List (Assignment α)), p.HasRoom →
    ∃ I, b.Safe p (Settings.ofAssignments pairs) I

variable (hb : b.SafeForCalls) (refusal : String → Option String)

include hb

namespace LoanedCall

open Course

variable (c : LoanedCall α)

theorem solveProgram_ensures {p : Program α} (hp : p.HasRoom) :
    Ensures (c.solveProgram b refusal p).ending fun _ => True := by
  rw [solveProgram]
  cases Assignment.ofArrays c.names.data c.values.data with
  | error e => exact .ok trivial
  | ok pairs =>
    refine ensures_then rfl (ensures_then rfl ?_)
    cases c.checkOutputs p with
    | error e => exact .ok trivial
    | ok _ =>
      obtain ⟨I, hsafe⟩ := hb p pairs hp
      exact ensures_bind (ensures_onFault (Session.run_ensures hsafe refusal _ _ _ _) _)
        fun status _ => .ok trivial

/-- **A call that holds its buffers ends.** -/
theorem solve_ensures : Ensures (c.solve b refusal).ending fun _ => True := by
  rw [solve]
  refine ensures_bind (ensures_onFault (Program.assemble_ends c.n c.m c.q c.P c.A c.l c.u) _)
    fun r hr => ?_
  cases r with
  | error e => exact .ok trivial
  | ok p => exact c.solveProgram_ensures hb refusal (hr p rfl)

end LoanedCall

/-- **A call ends.** -/
theorem Call.solve_ensures (c : Call α) (primal dual : Array α) :
    Ensures (c.solve b refusal primal dual).ending fun _ => True := by
  have hborrow : ∃ loaned, (c.borrow primal dual).ending = .ok loaned := ⟨_, rfl⟩
  obtain ⟨loaned, hloaned⟩ := hborrow
  rw [solve]
  cases b.checkWidths with
  | error e => exact .ok trivial
  | ok _ =>
    refine Course.ensures_then rfl ?_
    rw [Course.ending_bind, hloaned]
    exact loaned.solve_ensures hb refusal

namespace ForeignCall

open Attempt

omit [RoundingScalar α] hb in
theorem borrow_ends {β : Type} (id : ℕ) (what : String) (a : ForeignArray β) :
    (borrow (α := α) id what a).Ends fun _ => True :=
  (ends_ofExcept _).bind fun _ _ => ends_lift (.ok trivial)

omit [RoundingScalar α] hb in
theorem borrowTriplets_ends (id : ℕ) (t : ForeignTriplets α) :
    (borrowTriplets id t).Ends fun _ => True :=
  (borrow_ends _ _ _).bind fun _ _ => Ends.orGiveBack
    ((borrow_ends _ _ _).bind fun _ _ => Ends.orGiveBack
      ((borrow_ends _ _ _).bind fun _ _ => ends_pure trivial) _) _

omit [RoundingScalar α] hb in
/-- **Borrowing ends,** at the first array without its data or with all of them. -/
theorem borrowAll_ends (c : ForeignCall α) : c.borrowAll.Ends fun _ => True := by
  have hnames : c.copyNames.Ends fun _ => True :=
    (borrow_ends _ _ _).bind fun _ _ => (ends_giveBack _).bind fun _ _ => ends_pure trivial
  have hrest : ∀ names q P A l u, (c.borrowRest names q P A l u).Ends fun _ => True :=
    fun _ _ _ _ _ _ => Ends.bind (P := fun _ => True) (ends_lift (.ok trivial)) fun _ _ =>
      Ends.orGiveBack ((borrow_ends _ _ _).bind fun _ _ => Ends.orGiveBack
        ((borrow_ends _ _ _).bind fun _ _ => Ends.orGiveBack
          ((borrow_ends _ _ _).bind fun _ _ => ends_pure trivial) _) _) _
  refine hnames.bind fun names _ => (borrow_ends _ _ _).bind fun q _ => Ends.orGiveBack ?_ _
  refine (borrowTriplets_ends _ _).bind fun P _ => Ends.orGiveBack ?_ _
  refine (borrowTriplets_ends _ _).bind fun A _ => Ends.orGiveBack ?_ _
  refine (borrow_ends _ _ _).bind fun l _ => Ends.orGiveBack ?_ _
  exact (borrow_ends _ _ _).bind fun u _ => Ends.orGiveBack (hrest _ _ _ _ _ _) _

/-- **A call from outside ends.** -/
theorem attempt_ensures (c : ForeignCall α) :
    Ensures (c.attempt b refusal).ending fun _ => True := by
  rw [attempt]
  cases b.checkWidths with
  | error e => exact .ok trivial
  | ok _ =>
    refine Course.ensures_bind c.borrowAll_ends fun r _ => ?_
    cases r with
    | error e => exact .ok trivial
    | ok loaned => exact loaned.solve_ensures hb refusal

end ForeignCall
end Calls

/-! ## The solver of this library -/

/-- No name a caller can use is that of the time limit. -/
theorem Settings.timeLimit_ofAssignments {α : Type} [RoundingScalar α]
    (pairs : List (Assignment α)) :
    (Settings.ofAssignments pairs).timeLimit = (Settings.default : Settings α).timeLimit := by
  have happly : ∀ (set : Settings α) (a : Assignment α),
      (a.apply set).timeLimit = set.timeLimit := by
    intro set a
    cases a with
    | known name value => cases name <;> rfl
    | unknown text => rfl
  have hall : ∀ set : Settings α,
      (pairs.foldl Assignment.apply set).timeLimit = set.timeLimit := by
    induction pairs with
    | nil => exact fun _ => rfl
    | cons a pairs ih => exact fun set => (ih _).trans (happly set a)
  exact hall _

section Admm

variable (clock : Clock Float) (order : EliminationOrder)

/-- **The solver is safe** for a program with room, with settings that can be told. -/
theorem Backend.safe_admm {p : Program Float} (hp : p.HasRoom) {settings : Settings Float}
    (htell : Progress.Tellable settings) :
    (admm Progress.narrator clock order).Safe p settings fun s : Solver Float =>
      Solver.Starts settings s ∧ s.problem.n = p.n ∧ s.problem.m = p.m where
  setup hasLog := by
    refine Course.ensures_bind (Solver.setup_ensures_starts hp.quadratic.room hp.linear.room _ _ _ _
      _) fun r hr => ?_
    cases r with
    | error e => exact .ok fun s hs => by cases hs
    | ok s =>
      obtain ⟨hstarts, hn, hm⟩ := hr s rfl
      refine .ok fun s' hs' => ?_
      cases hs'
      exact ⟨hstarts, hn.trans hp.linear.ncols_eq, hm.trans hp.linear.nrows_eq⟩
  solve s hs := by
    obtain ⟨hstarts, hn, hm⟩ := hs
    -- a run that breaks off has a solution too, so both results go the same way
    obtain ⟨stage, hrun, -⟩ := Solver.invariant_fits.run_ensures hstarts.fits clock
    have hsized := hstarts.fits.sized_solution hrun
    have hnarrate : Ensures (Progress.narrator.run s clock stage.events) fun _ => True := by
      refine (Progress.tellAll_ensures (hstarts.settings_eq ▸ htell) _ clock _ _).bind
        fun told _ => ?_
      split <;> exact .ok trivial
    have hsolution : ∀ x y, (admm Progress.narrator clock order).solution stage.solver =
        some (x, y) → x.size = p.n ∧ y.size = p.m := by
      intro x y hxy
      have hxy' : (if stage.solver.solution.status.hasSolution then
          some (stage.solver.solution.x, stage.solver.solution.y) else none) = some (x, y) := hxy
      split_ifs at hxy'
      cases hxy'
      exact ⟨hsized.size_x.trans hn, hsized.size_y.trans hm⟩
    refine Course.ensures_bind (.of_eq hrun rfl) ?_
    rintro _ rfl
    refine Course.ensures_bind hnarrate ?_
    rintro ⟨journal, text⟩ -
    refine Course.ensures_then rfl (Course.ensures_then rfl ?_)
    cases stage.result with
    | ok _ => exact .ok hsolution
    | error e => exact .ok hsolution

theorem Backend.safeForCalls_admm : (admm Progress.narrator clock order).SafeForCalls :=
  fun _ pairs hp => ⟨_, safe_admm clock order hp
    (.of_timeLimit (Settings.timeLimit_ofAssignments pairs))⟩

end Admm

namespace WellOnDoubles

/-- `½·x² − x` is minimised, without constraints. -/
def P : Csc Float := ⟨1, 1, #[0, 1], #[0], #[1]⟩

def A : Csc Float := ⟨0, 1, #[0, 0], #[], #[]⟩

def settings : Settings Float := { Settings.default with verbose := false }

/-- No time passes. -/
def clock : Clock Float := ⟨0, fun _ => 0, 0⟩

theorem setUp : ∃ s₀, Solver.setup P #[-1] A #[] #[] settings .natural = .ok (.ok s₀) := by
  have hok : ((Solver.setup P #[-1] A #[] #[] settings .natural).toOption.bind
      Except.toOption).isSome = true := by
    decide +kernel
  generalize Solver.setup P #[-1] A #[] #[] settings .natural = r at hok
  obtain _ | _ | s₀ := r
  · cases hok
  · cases hok
  · exact ⟨s₀, rfl⟩

end WellOnDoubles

end SplitQP
