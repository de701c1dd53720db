/-!
# Why a call is refused

A call carries its data as flat arrays. What is wrong with them is found
out before a solver is set up, and the caller is told in one line.
-/

namespace SplitQP

/-- The sizes, in bytes, of the indices and floating point numbers of a
solver or a caller. -/
structure Widths where
  index : Nat
  float : Nat
  deriving DecidableEq, Repr

/-- The widths in which callers pass data. -/
def Widths.expected : Widths := ⟨8, 8⟩

/-- Why a call is refused. -/
inductive CallError where
  /-- A coordinate entry lies outside its matrix. -/
  | entryOutside (matrix : String) (position : Nat) (row col : Int) (nrows ncols : Nat)
  /-- An array has the wrong length. -/
  | lengthMismatch (what : String) (expected found : Nat)
  | negativeDimension (what : String) (value : Int)
  /-- There are no data, but they are said to have a length. -/
  | nullBuffer (what : String) (length : Nat)
  | widthMismatch (found : Widths)
  /-- Storage for so many entries cannot be had. -/
  | allocationFailed (what : String) (count : Nat)
  deriving DecidableEq, Repr

namespace CallError

/-- The wording of each error. -/
def message : CallError → String
  | entryOutside matrix position row col nrows ncols =>
    s!"{matrix}: entry {position} at ({row}, {col}) lies outside a {nrows} x {ncols} matrix"
  | lengthMismatch what expected found => s!"{what}: expected length {expected}, found {found}"
  | negativeDimension what value => s!"{what} must be non-negative, found {value}"
  | nullBuffer what length => s!"{what}: null buffer with length {length}"
  | widthMismatch found =>
    s!"numeric width mismatch: backend uses {found.index}/{found.float} byte indices/floats, " ++
      s!"caller expects {Widths.expected.index}/{Widths.expected.float}"
  | allocationFailed what count => s!"{what}: allocation of {count} entries failed"

/-- Refuses `found` where another length was expected. -/
def checkLength (what : String) (expected found : Nat) : Except CallError Unit :=
  if found = expected then .ok () else .error (.lengthMismatch what expected found)

/-- A size the caller gives as a signed number. -/
def dimension (what : String) (value : Int) : Except CallError Nat :=
  if 0 ≤ value then .ok value.toNat else .error (.negativeDimension what value)

theorem checkLength_eq_ok {what : String} {expected found : Nat} :
    checkLength what expected found = .ok () ↔ found = expected := by
  simp [checkLength]

theorem dimension_natCast (what : String) (n : Nat) : dimension what n = .ok n := by
  simp [dimension]

end CallError

end SplitQP
