import SplitQP.Output.LogFile
import SplitQP.Call.Course
import SplitQP.Call.Loan
import SplitQP.Call.NamedSettings
/-!
# The history of a call

A call is told as a list of steps: buffers borrowed and given back, states
passed, output written, remarks made. What a caller can see is read off
that list: the balance of the loans, the trace of the session, the output
buffers, the remarks, and the text on each channel.
-/

namespace SplitQP

/-- The state of a session. -/
inductive SessionState where
  | uninitialized
  | configured
  | ready
  | solved
  | failed
  | released
  deriving DecidableEq, Repr

/-- The name of a state. -/
def SessionState.name : SessionState → String
  | uninitialized => "Uninitialized"
  | configured => "Configured"
  | ready => "Ready"
  | solved => "Solved"
  | failed => "Failed"
  | released => "Released"

/-- What a session puts on its trace. -/
inductive SessionEvent where
  | logOpened
  | workspaceReady
  | setupFailed (code : Int)
  | solved (status : Int)
  | solveFailed (exit : Int)
  | workspaceReleased
  | settingsReleased
  | problemReleased
  | logClosed
  deriving DecidableEq, Repr

namespace SessionEvent

/-- The name of an event, and its code if it has one. -/
def parts : SessionEvent → String × Option Int
  | logOpened => ("LogOpened", none)
  | workspaceReady => ("WorkspaceReady", none)
  | setupFailed code => ("SetupFailed", some code)
  | solved status => ("Solved", some status)
  | solveFailed exit => ("SolveFailed", some exit)
  | workspaceReleased => ("WorkspaceReleased", none)
  | settingsReleased => ("SettingsReleased", none)
  | problemReleased => ("ProblemReleased", none)
  | logClosed => ("LogClosed", none)

/-- An event as text. -/
def text (e : SessionEvent) : String :=
  match e.parts with
  | (name, none) => name
  | (name, some code) => s!"{name}({code})"

end SessionEvent

/-- Why a session does not begin to solve. -/
inductive Unfit where
  | widths (found : Widths)
  | outputs (primal dual n m : Nat)
  deriving DecidableEq, Repr

/-- Widths as text. -/
def Widths.text (w : Widths) : String :=
  s!"NumericWidths \x7b index: {w.index}, float: {w.float} \x7d"

/-- The wording. -/
def Unfit.message : Unfit → String
  | widths found =>
    s!"backend widths {found.text} differ from expected {Widths.expected.text}"
  | outputs primal dual n m =>
    s!"output buffers of length {primal}/{dual} for a problem of size {n}/{m}"

/-- One step of a call. -/
inductive Step (α : Type) where
  /-- A call has come in. -/
  | called (n m : Int) (nnzP nnzA : Nat)
  | acquired (loan : LoanTag) (length : Nat)
  | released (loan : LoanTag)
  /-- A matrix was built. -/
  | built (matrix : String) (nrows ncols nnz dropped : Nat)
  /-- A program was put together. -/
  | assembled (n m : Nat)
  | assigned (pair : Assignment α)
  /-- The call was refused. -/
  | refused (e : CallError)
  | unfit (why : Unfit)
  | moved (source target : SessionState)
  | happened (event : SessionEvent)
  | log (event : LogEvent)
  /-- A remark of the solver. -/
  | remarked (remark : Remark)
  /-- Text on standard output. -/
  | printed (text : ByteArray)
  /-- Text for the open log. -/
  | logged (text : ByteArray)
  | primalWritten (x : Array α)
  | dualWritten (y : Array α)
  /-- The call stopped at a fault. -/
  | faulted

namespace Step

variable {α : Type}

/-- The remark on a step; `text` writes a setting's value. -/
def remark? (text : α → String) : Step α → Option Remark
  | called n m nnzP nnzA => some ⟨.debug,
      s!"solve call: n = {n}, m = {m}, nnz(P) = {nnzP}, nnz(A) = {nnzA}"⟩
  | acquired loan length => some ⟨.debug, s!"acquired {loan.what} ({length} elements)"⟩
  | released loan => some ⟨.debug, s!"released {loan.what}"⟩
  | built matrix nrows ncols nnz dropped => some ⟨.debug,
      s!"{matrix}: built {nrows} x {ncols} matrix with {nnz} entries ({dropped} dropped)"⟩
  | assembled n m => some ⟨.debug,
      s!"assembled problem with {n} variables and {m} constraints"⟩
  | assigned (.known name value) => some ⟨.debug, s!"setting {name.text} = {text value}"⟩
  | assigned (.unknown name) => some ⟨.warn, unknownSettingMessage name⟩
  | refused e => some ⟨.error, e.message⟩
  | unfit why => some ⟨.error, why.message⟩
  | moved source target => some ⟨.debug, s!"session: {source.name} -> {target.name}"⟩
  | happened event => some ⟨.debug, s!"session event: {event.text}"⟩
  | log event => some event.remark
  | remarked remark => some remark
  | faulted => some ⟨.error, "panic while solving, returning -1"⟩
  | printed _ | logged _ | primalWritten _ | dualWritten _ => none

/-- What the user is told on a step, apart from progress text. -/
def complaint? : Step α → Option String
  | assigned pair => pair.complaint?
  | refused e => some s!"qpbridge: {e.message}"
  | log event => event.complaint?
  | _ => none

/-- The step puts an event on the trace. -/
def event? : Step α → Option SessionEvent
  | happened event => some event
  | _ => none

/-- The step borrows a buffer. -/
def isAcquisition : Step α → Bool
  | acquired _ _ => true
  | _ => false

/-- The step gives a buffer back. -/
def isRelease : Step α → Bool
  | released _ => true
  | _ => false

/-- The logs after the step. Text goes to the log opened last. -/
def toLogs (s : LogStore) : Step α → LogStore
  | log (.opened path) => s.create path
  | log .closed => s.close s.latest
  | logged text => s.write s.latest text
  | _ => s

end Step

/-- The steps of a call, the first one first. -/
abbrev History (α : Type) : Type := List (Step α)

namespace History

variable {α : Type}

/-- How many buffers were borrowed. -/
def acquired (h : History α) : Nat := h.countP Step.isAcquisition

/-- How many buffers were given back. -/
def released (h : History α) : Nat := h.countP Step.isRelease

/-- As many buffers were given back as were borrowed. -/
def isBalanced (h : History α) : Bool := acquired h == released h

/-- The trace. -/
def events (h : History α) : List SessionEvent := h.filterMap Step.event?

/-- The state of the session after the steps. -/
def state (start : SessionState) (h : History α) : SessionState :=
  h.foldl (fun state s => match s with | .moved _ target => target | _ => state) start

/-- The primal output after the steps. -/
def primal (start : Array α) (h : History α) : Array α :=
  h.foldl (fun out s => match s with | .primalWritten x => x | _ => out) start

/-- The dual output after the steps. -/
def dual (start : Array α) (h : History α) : Array α :=
  h.foldl (fun out s => match s with | .dualWritten y => y | _ => out) start

/-- All remarks. -/
def journal (text : α → String) (h : History α) : Journal :=
  (h.filterMap (Step.remark? text)).toArray

/-- What the user was told, a line each. -/
def complaints (h : History α) : String :=
  String.join ((h.filterMap Step.complaint?).map (· ++ "\n"))

/-- The text on standard output. -/
def output (h : History α) : ByteArray :=
  h.foldl (fun out s => match s with | .printed text => out ++ text | _ => out) .empty

/-- The logs once everybody has let go of them. -/
def logs (start : LogStore) (h : History α) : LogStore :=
  (h.foldl Step.toLogs start).settle

theorem acquired_append (h k : History α) :
    acquired (h ++ k) = acquired h + acquired k := List.countP_append

theorem released_append (h k : History α) :
    released (h ++ k) = released h + released k := List.countP_append

theorem events_append (h k : History α) : events (h ++ k) = events h ++ events k :=
  List.filterMap_append

theorem primal_append (start : Array α) (h k : History α) :
    primal start (h ++ k) = primal (primal start h) k := List.foldl_append

theorem dual_append (start : Array α) (h k : History α) :
    dual start (h ++ k) = dual (dual start h) k := List.foldl_append

end History

end SplitQP
