import SplitQP.Text.Utf8
import SplitQP.Call.Solve
/-!
# Calls from outside

A caller outside the library passes arrays that may have no data, and text
as bytes that need not be text. Bytes that are no text are read as
replacement characters. The first array with a length but no data ends the
call, and so does a fault, with the failure code.
-/

namespace SplitQP

/-- The arrays of a matrix. -/
structure ForeignTriplets (α : Type) where
  rows : ForeignArray Int
  cols : ForeignArray Int
  vals : ForeignArray α

/-- What a caller from outside passes. -/
structure ForeignCall (α : Type) where
  n : Int
  m : Int
  logPath : Option ByteArray
  objective : ForeignArray α
  quadratic : ForeignTriplets α
  matrix : ForeignTriplets α
  lower : ForeignArray α
  upper : ForeignArray α
  names : ForeignArray (Option ByteArray)
  values : ForeignArray α
  primal : ForeignArray α
  dual : ForeignArray α

/-- Text from outside, or `absent` where there is none. -/
def foreignText (absent : String) : Option ByteArray → String
  | none => absent
  | some bytes => Utf8.decodeLossy bytes

/-- The name under which a missing name goes. -/
def missingName : String := "(null)"

namespace ForeignCall

variable {α : Type}

/-- Borrows an array that has its data. -/
def borrow {β : Type} (id : Nat) (what : String) (a : ForeignArray β) : Attempt α (Loan β) := do
  let data ← Attempt.ofExcept (a.view what)
  ExceptT.lift (Loan.borrow id what data)

/-- Borrows the arrays of a matrix, the first one as loan `id`. -/
def borrowTriplets (id : Nat) (t : ForeignTriplets α) : Attempt α (TripletLoans α) := do
  let rows ← borrow id "triplet rows" t.rows
  .orGiveBack [rows.tag] do
    let cols ← borrow (id + 1) "triplet columns" t.cols
    .orGiveBack [cols.tag] do
      let vals ← borrow (id + 2) "triplet values" t.vals
      return ⟨rows, cols, vals⟩

/-- The names of the settings. Their array is given back once they are copied. -/
def copyNames (c : ForeignCall α) : Attempt α (Array String) := do
  let names ← borrow 13 "setting names" c.names
  Attempt.giveBack [names.tag]
  return names.data.map (foreignText missingName)

/-- Borrows settings and outputs, the last buffers of a call. -/
def borrowRest (c : ForeignCall α) (names : Array String) (q : Loan α) (P A : TripletLoans α)
    (l u : Loan α) : Attempt α (LoanedCall α) := do
  let names ← ExceptT.lift (Loan.borrow 9 "setting name strings" names)
  .orGiveBack [names.tag] do
    let values ← borrow 10 "setting values" c.values
    .orGiveBack [values.tag] do
      let primal ← borrow 11 "primal output" c.primal
      .orGiveBack [primal.tag] do
        let dual ← borrow 12 "dual output" c.dual
        return ⟨c.n, c.m, foreignText "" c.logPath, q, P, A, l, u, names,
          values, primal, dual⟩

/-- **Borrows every buffer of a call.** At the first one that has no data those
borrowed before are given back, the last one first. -/
def borrowAll (c : ForeignCall α) : Attempt α (LoanedCall α) := do
  let names ← c.copyNames
  let q ← borrow 0 "linear objective" c.objective
  .orGiveBack [q.tag] do
    let P ← borrowTriplets 1 c.quadratic
    .orGiveBack P.tags do
      let A ← borrowTriplets 4 c.matrix
      .orGiveBack A.tags do
        let l ← borrow 7 "lower bounds" c.lower
        .orGiveBack [l.tag] do
          let u ← borrow 8 "upper bounds" c.upper
          .orGiveBack [u.tag] (c.borrowRest names q P A l u)

variable [RoundingScalar α]

/-- Solves a call, faults included. -/
def attempt (b : Backend α) (refusal : String → Option String) (c : ForeignCall α) :
    Course (Step α) Outcome := do
  match b.checkWidths with
  | .error e => refuse e
  | .ok () =>
    match ← c.borrowAll.run with
    | .error e => refuse e
    | .ok c => c.solve b refusal

/-- **Solves a call from outside.** It has a status whatever happens. -/
def solve (b : Backend α) (refusal : String → Option String) (c : ForeignCall α) :
    History α × Int :=
  let course := attempt b refusal c
  match course.ending with
  | .ok outcome => (course.steps, outcome.status)
  | .error _ => (course.steps ++ [.faulted], setupErrorCode)

end ForeignCall

end SplitQP
