import SplitQP.Call.Backend
/-!
# Sessions

A session takes a program through a backend: it opens a log if one is
wanted, sets up a workspace, solves, hands the solution over, and gives
everything up in a fixed order. Output buffers are written only where the
backend has a solution.
-/

namespace SplitQP

namespace Session

variable {α : Type}

/-- Passes from one state to another. -/
def move (source target : SessionState) : Course (Step α) Unit :=
  Course.step (.moved source target)

/-- Puts an event on the trace. -/
def happen (event : SessionEvent) : Course (Step α) Unit := Course.step (.happened event)

/-- What a backend says, as a step: text goes to the log if there is one. -/
def hear (hasLog : Bool) : Utterance → Step α
  | .remark r => .remarked r
  | .text bytes => if hasLog then .logged bytes else .printed bytes

/-- Why the session does not begin, if it does not. -/
def unfit? (b : Backend α) (p : Program α) (primal dual : Array α) : Option Unfit :=
  if b.widths ≠ .expected then some (.widths b.widths)
  else if primal.size ≠ p.n ∨ dual.size ≠ p.m then
    some (.outputs primal.size dual.size p.n p.m)
  else none

/-- Opens the log, if one is wanted and can be had. -/
def openLog (refusal : String → Option String) (path : String) : Course (Step α) Bool :=
  match LogEvent.ofPath? refusal path with
  | none => return false
  | some (.opened path) => do
    Course.step (.log (.opened path))
    happen .logOpened
    return true
  | some event => do
    Course.step (.log event)
    return false

/-- Fills an output buffer of length `size`. -/
def fill (size : Nat) (v : Array α) (written : Array α → Step α) : Course (Step α) Unit := do
  Course.ofChecked (Checked.require (v.size = size) .lengthMismatch)
  Course.step (written v)

/-- Hands the solution over, primal first. -/
def handOver (primal dual : Array α) : Option (Array α × Array α) → Course (Step α) Unit
  | none => return ()
  | some (x, y) => do
    fill primal.size x .primalWritten
    fill dual.size y .dualWritten

/-- Sets up and solves. Answers the status and the state it leaves. -/
def solve (b : Backend α) (p : Program α) (settings : Settings α) (hasLog : Bool)
    (primal dual : Array α) : Course (Step α) (Int × SessionState) := do
  match ← (b.setup p settings hasLog).mapSteps (hear hasLog) with
  | .error code =>
    move .configured .failed
    happen (.setupFailed code)
    return (setupErrorCode, .failed)
  | .ok w =>
    move .configured .ready
    happen .workspaceReady
    let (w, exit) ← (b.solve w).mapSteps (hear hasLog)
    if exit = 0 then
      handOver primal dual (b.solution w)
      let status := b.status w
      move .ready .solved
      happen (.solved status)
      happen .workspaceReleased
      return (status, .solved)
    else
      move .ready .failed
      happen (.solveFailed exit)
      happen .workspaceReleased
      return (exit, .failed)

/-- Gives everything up. -/
def close (p : Program α) (hasLog : Bool) (state : SessionState) : Course (Step α) Unit := do
  happen .settingsReleased
  Course.walk (p.tags.map .released)
  happen .problemReleased
  if hasLog then
    Course.step (.log .closed)
    happen .logClosed
  move state .released

/-- **Takes a program through a backend.** Answers the status: the failure code
where solving did not begin, the exit flag where it broke off, and the
backend's status otherwise. -/
def run (b : Backend α) (refusal : String → Option String) (state : SessionState)
    (p : Program α) (settings : Settings α) (logPath : String) (primal dual : Array α) :
    Course (Step α) Int := do
  move state .configured
  match unfit? b p primal dual with
  | some why =>
    Course.step (.unfit why)
    move .configured .failed
    close p false .failed
    return setupErrorCode
  | none =>
    let hasLog ← openLog refusal logPath
    let (status, state) ←
      (solve b p settings hasLog primal dual).onFault (p.tags.map .released)
    close p hasLog state
    return status

end Session

end SplitQP
