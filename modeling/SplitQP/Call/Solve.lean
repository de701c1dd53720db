import SplitQP.Call.Session
/-!
# Solving a call

A call borrows its buffers, is put together, has its settings resolved and
is taken through a session. It is refused where any of this fails before
the session. Whatever happens, every buffer is given back.
-/

namespace SplitQP

/-- What a caller passes. -/
structure Call (α : Type) where
  /-- How many variables. -/
  n : Int := 0
  /-- How many constraints. -/
  m : Int := 0
  /-- Empty where no log is wanted. -/
  logPath : String := ""
  objective : Array α := #[]
  quadratic : Coordinates α := {}
  matrix : Coordinates α := {}
  lower : Array α := #[]
  upper : Array α := #[]
  names : Array String := #[]
  values : Array α := #[]
  deriving BEq, Repr

/-- A call all of whose buffers are on loan, the outputs included. -/
structure LoanedCall (α : Type) where
  n : Int
  m : Int
  logPath : String
  q : Loan α
  P : TripletLoans α
  A : TripletLoans α
  l : Loan α
  u : Loan α
  names : Loan String
  values : Loan α
  primal : Loan α
  dual : Loan α

/-- How a call ended: its status, and whether a session ran. -/
structure Outcome where
  status : Int
  hadSession : Bool
  deriving DecidableEq, Repr

/-- Refuses a call. -/
def refuse {α : Type} (e : CallError) : Course (Step α) Outcome := do
  Course.step (.refused e)
  return ⟨setupErrorCode, false⟩

/-- Refuses a backend of other widths than the callers'. -/
def Backend.checkWidths {α : Type} (b : Backend α) : Except CallError Unit :=
  if b.widths = .expected then .ok () else .error (.widthMismatch b.widths)

namespace LoanedCall

variable {α : Type}

/-- The tags of the outputs in the order in which they are given back. -/
def outputTags (c : LoanedCall α) : List LoanTag := [c.dual.tag, c.primal.tag]

/-- The tags of the settings in the order in which they are given back where
the call is refused. -/
def settingTags (c : LoanedCall α) : List LoanTag := [c.values.tag, c.names.tag]

/-- Gives buffers back. -/
def giveBack (tags : List LoanTag) : Course (Step α) Unit := Course.walk (tags.map .released)

/-- Refuses output buffers of the wrong length. -/
def checkOutputs (c : LoanedCall α) (p : Program α) : Except CallError Unit := do
  CallError.checkLength "primal output" p.n c.primal.data.size
  CallError.checkLength "dual output" p.m c.dual.data.size

/-- Runs a session, and gives the outputs back afterwards. -/
def inSession (c : LoanedCall α) (b : Backend α) (refusal : String → Option String)
    (p : Program α) (settings : Settings α) : Course (Step α) Outcome := do
  let status ← (Session.run b refusal .uninitialized p settings c.logPath c.primal.data
    c.dual.data).onFault (c.outputTags.map .released)
  giveBack c.outputTags
  return ⟨status, true⟩

variable [RoundingScalar α]

/-- Goes on with a program: settings, outputs, session. -/
def solveProgram (c : LoanedCall α) (b : Backend α) (refusal : String → Option String)
    (p : Program α) : Course (Step α) Outcome := do
  match Assignment.ofArrays c.names.data c.values.data with
  | .error e =>
    let outcome ← refuse e
    giveBack (p.tags ++ c.outputTags ++ c.settingTags)
    return outcome
  | .ok pairs =>
    Course.walk (pairs.map .assigned)
    giveBack [c.names.tag, c.values.tag]
    match c.checkOutputs p with
    | .error e =>
      let outcome ← refuse e
      giveBack (p.tags ++ c.outputTags)
      return outcome
    | .ok () => c.inSession b refusal p (Settings.ofAssignments pairs)

/-- **Solves a call that holds all its buffers.** -/
def solve (c : LoanedCall α) (b : Backend α) (refusal : String → Option String) :
    Course (Step α) Outcome := do
  match ← (Program.assemble c.n c.m c.q c.P c.A c.l c.u).run.onFault
      ((c.outputTags ++ c.settingTags).map .released) with
  | .error e =>
    let outcome ← refuse e
    giveBack (c.outputTags ++ c.settingTags)
    return outcome
  | .ok p => c.solveProgram b refusal p

end LoanedCall

namespace Call

variable {α : Type}

/-- Borrows the buffers of a matrix, the first one as loan `id`. -/
def borrowTriplets (id : Nat) (t : Coordinates α) : Course (Step α) (TripletLoans α) := do
  let rows ← Loan.borrow id "triplet rows" t.rows
  let cols ← Loan.borrow (id + 1) "triplet columns" t.cols
  let vals ← Loan.borrow (id + 2) "triplet values" t.vals
  return ⟨rows, cols, vals⟩

/-- Borrows every buffer of a call. -/
def borrow (c : Call α) (primal dual : Array α) : Course (Step α) (LoanedCall α) := do
  let q ← Loan.borrow 0 "linear objective" c.objective
  let P ← borrowTriplets 1 c.quadratic
  let A ← borrowTriplets 4 c.matrix
  let l ← Loan.borrow 7 "lower bounds" c.lower
  let u ← Loan.borrow 8 "upper bounds" c.upper
  let names ← Loan.borrow 9 "setting names" c.names
  let values ← Loan.borrow 10 "setting values" c.values
  let primal ← Loan.borrow 11 "primal output" primal
  let dual ← Loan.borrow 12 "dual output" dual
  return ⟨c.n, c.m, c.logPath, q, P, A, l, u, names, values, primal, dual⟩

/-- **Solves a call.** `primal` and `dual` are the output buffers as the caller
passes them; what becomes of them is part of the history. -/
def solve [RoundingScalar α] (b : Backend α) (refusal : String → Option String) (c : Call α)
    (primal dual : Array α) : Course (Step α) Outcome := do
  match b.checkWidths with
  | .error e => refuse e
  | .ok () =>
    Course.step (.called c.n c.m c.quadratic.vals.size c.matrix.vals.size)
    (← c.borrow primal dual).solve b refusal

end Call

end SplitQP
