import SplitQP.Call.Coordinates
import SplitQP.Call.History
/-!
# Putting a program together

The buffers of a call become a program: two matrices of its own, and three
vectors that stay on loan. The matrices' buffers are given back as soon as
the matrices are built. If anything is wrong, every buffer is given back.
-/

namespace SplitQP

/-- A quadratic program in the making or ready for a solver. -/
structure Program (α : Type) where
  n : Nat
  m : Nat
  /-- The quadratic objective, `n × n`, upper triangle. -/
  P : Csc α
  q : Loan α
  /-- The constraint matrix, `m × n`. -/
  A : Csc α
  l : Loan α
  u : Loan α

/-- A course of a call that may be refused. -/
abbrev Attempt (α β : Type) : Type := ExceptT CallError (Course (Step α)) β

namespace Attempt

variable {α β : Type}

/-- Refuses where a check does. -/
def ofExcept (e : Except CallError β) : Attempt α β := ExceptT.mk (pure e)

/-- Takes a step. -/
def step (s : Step α) : Attempt α Unit := ExceptT.lift (Course.step s)

/-- Gives buffers back. -/
def giveBack (tags : List LoanTag) : Attempt α Unit :=
  ExceptT.lift (Course.walk (tags.map .released))

/-- Gives buffers back if `act` comes to nothing. -/
def orGiveBack (tags : List LoanTag) (act : Attempt α β) : Attempt α β :=
  ExceptT.mk (act.run.unlessDone (tags.map .released))

end Attempt

/-- Borrows a buffer. -/
def Loan.borrow {α β : Type} (id : Nat) (what : String) (data : Array β) :
    Course (Step α) (Loan β) := do
  Course.step (.acquired ⟨id, what⟩ data.size)
  return ⟨⟨id, what⟩, data⟩

namespace TripletLoans

variable {α : Type}

/-- The matrix the buffers describe. -/
def coordinates (t : TripletLoans α) : Coordinates α := ⟨t.rows.data, t.cols.data, t.vals.data⟩

/-- Builds the matrix and gives its buffers back, whatever came of it. -/
def build [Scalar α] (t : TripletLoans α) (matrix : String) (nrows ncols : Nat) :
    Attempt α (Csc α) := do
  let (A, dropped) ← .orGiveBack t.tags
    (ExceptT.mk (Course.ofChecked (t.coordinates.toCsc matrix nrows ncols)))
  Attempt.step (.built matrix nrows ncols A.value.size dropped)
  Attempt.giveBack t.tags
  return A

end TripletLoans

namespace Program

variable {α : Type}

/-- The tags of the loans in the order in which they are given back. -/
def tags (p : Program α) : List LoanTag := [p.q.tag, p.l.tag, p.u.tag]

/-- The two sizes, checked against the vectors. -/
def sizes (n m : Int) (q l u : Array α) : Except CallError (Nat × Nat) := do
  let n ← CallError.dimension "number of variables" n
  let m ← CallError.dimension "number of constraints" m
  CallError.checkLength "linear objective" n q.size
  CallError.checkLength "lower bounds" m l.size
  CallError.checkLength "upper bounds" m u.size
  return (n, m)

variable [Scalar α]

/-- **Puts a program together.** -/
def assemble (n m : Int) (q : Loan α) (P A : TripletLoans α) (l u : Loan α) :
    Attempt α (Program α) := do
  let (n, m) ← .orGiveBack (u.tag :: l.tag :: A.tags ++ P.tags ++ [q.tag])
    (Attempt.ofExcept (sizes n m q.data l.data u.data))
  let quadratic ← .orGiveBack (u.tag :: l.tag :: A.tags ++ [q.tag])
    (P.build "quadratic objective" n n)
  let linear ← .orGiveBack [u.tag, l.tag, q.tag] (A.build "constraint matrix" m n)
  Attempt.step (.assembled n m)
  return ⟨n, m, quadratic, q, linear, l, u⟩

end Program

end SplitQP
