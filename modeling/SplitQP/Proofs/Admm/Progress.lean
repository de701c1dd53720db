import SplitQP.Proofs.Admm.Runs
import SplitQP.Admm.Progress
/-!
# Telling about runs answers

All that can go wrong in the words about a run is a time limit that is no
span of time, and the limit is only put into words where progress is
printed (`Tellable`). The limit of the defaults is none, and can be told
(`Tellable.of_timeLimit`). A run that is told is the same run
(`Fits.runTold_ensures`).
-/

namespace SplitQP

open Checked

namespace Progress

variable {set : Settings Float}

/-- **Nothing is printed,** or the time limit can be. -/
def Tellable (set : Settings Float) : Prop :=
  set.verbose = true → ∃ text, timeLimitText set.timeLimit = .ok text

theorem Tellable.of_quiet (h : set.verbose = false) : Tellable set := fun hverbose => by
  rw [h] at hverbose
  cases hverbose

/-- No time limit is told as such. -/
theorem Tellable.of_timeLimit (h : set.timeLimit = (Settings.default : Settings Float).timeLimit) :
    Tellable set := by
  have hzero : ((Settings.default : Settings Float).timeLimit == 0.0) = true := by decide +kernel
  exact fun _ => ⟨"none", by rw [timeLimitText, h, if_pos hzero]; rfl⟩

theorem blocks_ensures {text : String} (h : timeLimitText set.timeLimit = .ok text)
    (p : Problem Float) (clock : Clock Float) (event : Event Float) :
    Ensures (blocks p set clock event) fun _ => True := by
  cases event with
  | started =>
    rw [blocks, configuration, h]
    exact .ok trivial
  | checked info rho => exact .ok trivial
  | finished info => exact .ok trivial
  | noted note => exact .ok trivial

variable (h : Tellable set) (p : Problem Float) (clock : Clock Float)

include h

theorem tell_ensures (told : Told) (event : Event Float) :
    Ensures (tell p set clock told event) fun _ => True := by
  have hprinted : ∀ event, Ensures
      (if set.verbose then return (← blocks p set clock event).foldl tellBlock told
        else return told : Checked Told) fun _ => True := by
    intro event
    cases hverbose : set.verbose with
    | false => exact .ok trivial
    | true =>
      obtain ⟨text, htext⟩ := h hverbose
      exact (blocks_ensures htext p clock event).bind fun _ _ => .ok trivial
  cases event with
  | started => exact hprinted .started
  | checked info rho => exact hprinted (.checked info rho)
  | finished info => exact hprinted (.finished info)
  | noted note => exact .ok trivial

/-- **Telling about events answers.** -/
theorem tellAll_ensures (told : Told) (events : List (Event Float)) :
    Ensures (tellAll p set clock told events) fun _ => True :=
  ensures_foldlM (I := fun _ _ => True) trivial fun _ event _ told _ _ =>
    tell_ensures h p clock told event

end Progress

namespace Solver

/-- **A run that is told** is the run, and answers. -/
theorem Fits.runTold_ensures {shift : Float} {s : Solver Float} (h : Fits shift s)
    (htell : Progress.Tellable s.settings) (clock : Clock Float) (told : Progress.Told) :
    Ensures (s.runTold clock told) fun r =>
      ∃ stage, s.run clock = .ok stage ∧ r.1 = stage.solver ∧ r.2.1 = stage.result := by
  obtain ⟨stage, hrun, -⟩ := invariant_fits.run_ensures h clock
  rw [runTold, hrun, ok_bind]
  exact (Progress.tellAll_ensures htell _ clock told stage.events).bind fun _ _ =>
    .ok ⟨stage, rfl, rfl, rfl⟩

end Solver

end SplitQP
