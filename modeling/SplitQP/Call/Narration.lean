import SplitQP.Admm.Progress
import SplitQP.Call.Backend
/-!
# The solver's own words in a call

On doubles the runs of the solver are told in the solver's progress text.
-/

namespace SplitQP

/-- **Progress text.** It is gathered in a buffer, for the session to pass on. -/
def Progress.narrator : Narrator Float where
  note := noteText
  run solver clock events := do
    let told ← tellAll solver.problem solver.settings clock ⟨.buffer .empty, {}, #[]⟩ events
    match told.target with
    | .buffer text => return (told.journal, text)
    | _ => return (told.journal, .empty)

/-- The solver as callers get it. -/
def Backend.standard (clock : Clock Float) : Backend Float :=
  Backend.admm Progress.narrator clock .natural

end SplitQP
