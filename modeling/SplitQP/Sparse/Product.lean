import SplitQP.Sparse.Matrix
/-!
# Sparse matrices — products and norms

Three products with a vector: with the matrix (a scatter along its
entries), with its transpose (a sum down each column), and with the
symmetric matrix whose upper triangle is stored (each entry off the
diagonal counts at its mirrored place too). Each forms `a·M·x + b·y` and
does not read `y` where `b` is zero.
-/

namespace SplitQP

open Checked

namespace Csc

variable {α : Type} [Scalar α]

/-- `b·y`, where zero times anything is zero. -/
def prescale (b : α) (y : Array α) : Array α :=
  if Scalar.eq b 0 then y.map fun _ => 0
  else if Scalar.eq b 1 then y
  else Dense.scale b y

/-- Every stored row is below `bound`. -/
def rowsBelow (bound : Nat) (cols : List (List (Nat × α))) : Bool :=
  cols.all fun col => col.all (·.1 < bound)

/-! ## Products -/

/-- Adds `a·v·xⱼ` at row `i`. -/
def scatter (a : α) (x : Array α) (y : Array α) (e : Entry α) : Array α :=
  y.modify e.row (· + a * e.value * x.getD e.col 0)

/-- Adds `a·v·xⱼ` at row `i`, and `a·v·xᵢ` at row `j` unless the entry is on
the diagonal. -/
def scatterSym (a : α) (x : Array α) (y : Array α) (e : Entry α) : Array α :=
  let y := scatter a x y e
  if e.row = e.col then y else y.modify e.col (· + a * e.value * x.getD e.row 0)

/-- **`a·M·x + b·y`.** -/
def mulVec (A : Csc α) (a : α) (x : Array α) (b : α) (y : Array α) : Checked (Array α) := do
  require (x.size = A.ncols) .lengthMismatch
  require (y.size = A.nrows) .lengthMismatch
  let cols ← A.columns
  require (rowsBelow y.size cols) .outOfRange
  return (entriesOf cols).foldl (scatter a x) (prescale b y)

/-- `Σ v·xᵢ` over the entries of a column. -/
def columnDot (x : Array α) (col : List (Nat × α)) : α :=
  col.foldl (fun acc (i, v) => acc + v * x.getD i 0) 0

/-- **`a·Mᵀ·x + b·y`.** -/
def mulTransposeVec (A : Csc α) (a : α) (x : Array α) (b : α) (y : Array α) :
    Checked (Array α) := do
  require (x.size = A.nrows) .lengthMismatch
  require (y.size = A.ncols) .lengthMismatch
  let cols ← A.columns
  require (rowsBelow x.size cols) .outOfRange
  return (prescale b y).zipWith (fun yj col => yj + a * columnDot x col) cols.toArray

/-- **`a·S·x + b·y`,** where `S` is the symmetric matrix whose upper triangle
is stored. -/
def mulSymVec (A : Csc α) (a : α) (x : Array α) (b : α) (y : Array α) : Checked (Array α) := do
  require (A.nrows = A.ncols) .lengthMismatch
  require (x.size = A.ncols) .lengthMismatch
  require (y.size = A.ncols) .lengthMismatch
  let cols ← A.columns
  require (rowsBelow y.size cols) .outOfRange
  return (entriesOf cols).foldl (scatterSym a x) (prescale b y)

/-! ## Norms -/

/-- The largest magnitude of each column, in place of `norms`. -/
def colNorms (A : Csc α) (norms : Array α) : Checked (Array α) := do
  require (norms.size = A.ncols) .lengthMismatch
  let cols ← A.columns
  return (cols.map fun col => Dense.largest (col.map (·.2))).toArray

/-- Raises the norms of the row and the column of an entry to its
magnitude. -/
def raiseBoth (norms : Array α) (e : Entry α) : Array α :=
  let v := Scalar.abs e.value
  (norms.modify e.col (Scalar.max · v)).modify e.row (Scalar.max · v)

/-- The largest magnitude of each column of the symmetric matrix whose upper
triangle is stored, in place of `norms`. -/
def colNormsSym (A : Csc α) (norms : Array α) : Checked (Array α) := do
  require (norms.size = A.ncols) .lengthMismatch
  let cols ← A.columns
  require (rowsBelow norms.size cols) .outOfRange
  return (entriesOf cols).foldl raiseBoth (Dense.constant norms.size 0)

/-- The largest magnitude of each row, in place of `norms`. -/
def rowNorms (A : Csc α) (norms : Array α) : Checked (Array α) := do
  require (norms.size = A.nrows) .lengthMismatch
  let stored := (A.rowIndex.zip A.value).toList
  require (stored.all (·.1 < norms.size)) .outOfRange
  return stored.foldl (fun norms (i, v) => norms.modify i (Scalar.max · (Scalar.abs v)))
    (Dense.constant norms.size 0)

end Csc

end SplitQP
