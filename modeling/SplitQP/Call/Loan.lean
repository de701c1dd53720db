import SplitQP.Call.Error
/-!
# Loans — buffers of a caller

A call borrows every buffer it works on and gives each one back. A loan
has a number of its own, since several buffers may go by one name.
-/

namespace SplitQP

/-- What is told about a loan. -/
structure LoanTag where
  id : Nat
  what : String
  deriving DecidableEq, Repr

/-- A buffer on loan. -/
structure Loan (β : Type) where
  tag : LoanTag
  data : Array β
  deriving Repr

/-- The buffers of a matrix on loan. -/
structure TripletLoans (α : Type) where
  rows : Loan Int
  cols : Loan Int
  vals : Loan α
  deriving Repr

/-- The tags in the order in which the buffers are given back. -/
def TripletLoans.tags {α : Type} (t : TripletLoans α) : List LoanTag :=
  [t.rows.tag, t.cols.tag, t.vals.tag]

/-- An array of a caller from outside: entries, or no data with a length. -/
inductive ForeignArray (β : Type) where
  | null (length : Nat)
  | entries (data : Array β)
  deriving Repr

namespace ForeignArray

variable {β : Type}

/-- The entries. No data are an empty array if their length is zero. -/
def view (what : String) : ForeignArray β → Except CallError (Array β)
  | null 0 => .ok #[]
  | null (n + 1) => .error (.nullBuffer what (n + 1))
  | entries data => .ok data

/-- The entries, none where there are no data. -/
def toArray : ForeignArray β → Array β
  | null _ => #[]
  | entries data => data

end ForeignArray

end SplitQP
