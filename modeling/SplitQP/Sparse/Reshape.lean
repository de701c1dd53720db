import SplitQP.Sparse.Matrix
/-!
# Sparse matrices — canonical form, selection and scaling

`canonicalize` and `selectRows` rebuild a matrix from changed columns;
`dropSmall` and the scalings work on storage positions and leave the
pattern's other parts as they are.
-/

namespace SplitQP

open Checked

namespace Csc

variable {α : Type}

/-! ## Canonical form -/

/-- Adds `v` to row `i` of a column with strictly increasing rows. -/
def addEntry [Add α] (i : Nat) (v : α) : List (Nat × α) → List (Nat × α)
  | [] => [(i, v)]
  | (j, w) :: rest =>
    if i < j then (i, v) :: (j, w) :: rest
    else if i = j then (j, w + v) :: rest
    else (j, w) :: addEntry i v rest

/-- A column with rows in increasing order, duplicates summed in storage
order. -/
def canonicalColumn [Add α] (col : List (Nat × α)) : List (Nat × α) :=
  col.foldl (fun acc (i, v) => addEntry i v acc) []

/-- **Sorted rows and no duplicates.** -/
def canonicalize [Add α] (A : Csc α) : Checked (Csc α) := do
  let count ← A.nnz
  require (count ≤ maxEntries) .capacity
  let cols ← A.columns
  return ofColumns A.nrows (cols.map canonicalColumn)

/-! ## Dropping small entries -/

/-- State of the pass that drops entries: the next position to read, what
was kept, and the ends of the columns passed. -/
structure DropState (α : Type) where
  position : Nat
  kept : Array (Nat × α)
  ends : Array Nat

variable [Scalar α]

/-- A value survives unless its magnitude is at most `threshold`; one that
is not a number survives. -/
def isKept (threshold v : α) : Bool := !Scalar.le (Scalar.abs v) threshold

/-- Reads on to the end of column `j`. -/
def dropInColumn (A : Csc α) (threshold : α) (s : DropState α) (j : Nat) :
    Checked (DropState α) := do
  let stop ← read A.colStart (j + 1)
  require (stop ≤ s.position ∨ stop ≤ A.rowIndex.size ∧ stop ≤ A.value.size) .outOfRange
  let seen := (A.rowIndex.extract s.position stop).zip (A.value.extract s.position stop)
  let kept := s.kept ++ seen.filter (isKept threshold ·.2)
  return ⟨max s.position stop, kept, s.ends.push kept.size⟩

/-- **Drops entries of magnitude at most `threshold`,** and counts them.
Order and the remaining entries are untouched. -/
def dropSmall (A : Csc α) (threshold : α) : Checked (Csc α × Nat) := do
  let s ← A.columnIndices.foldlM (A.dropInColumn threshold) ⟨0, #[], #[]⟩
  let dropped := A.rowIndex.size - s.kept.size
  return ({ A with
    colStart := A.colStart.take 1 ++ s.ends ++ A.colStart.drop (1 + s.ends.size)
    rowIndex := s.kept.map (·.1)
    value := s.kept.map (·.2) }, dropped)

/-! ## Selecting rows -/

/-- The number of selected rows before row `i`. -/
def rank (mask : Array Bool) (i : Nat) : Nat := (mask.extract 0 i).count true

/-- The selected entries of column `j`, rows renumbered by rank. -/
def selectColumn (A : Csc α) (mask : Array Bool) (j : Nat) : Checked (List (Nat × α)) := do
  let picked ← (← A.slots j).filterMapM fun k => do
    let i ← read A.rowIndex k
    if ← read mask i then
      return some (rank mask i, ← read A.value k)
    else
      return none
  return picked

/-- **The rows that `mask` marks, in their order.** Storage is sized by the
number of selected entries; what the columns do not fill stays zero. -/
def selectRows (A : Csc α) (mask : Array Bool) : Checked (Csc α) := do
  require (mask.size = A.nrows) .lengthMismatch
  require (A.rowIndex.all (· < mask.size)) .outOfRange
  let room := A.rowIndex.countP fun i => mask[i]?.getD false
  let cols ← A.columnIndices.mapM (A.selectColumn mask)
  let B := ofColumns (mask.count true) cols
  require (B.value.size ≤ room) .outOfRange
  return { B with
    rowIndex := B.rowIndex ++ Array.replicate (room - B.rowIndex.size) 0
    value := B.value ++ Array.replicate (room - B.value.size) 0 }

/-! ## Scaling -/

/-- Every value times `c`. -/
def scale (A : Csc α) (c : α) : Csc α := { A with value := Dense.scale c A.value }

/-- Scales the values at the positions of column `j` by `lᵢ·rⱼ`. -/
def scaleColumn (rowIndex : Array Nat) (l : Array α) (rj : α) (value : Array α)
    (k : Nat) : Checked (Array α) := do
  let li ← read l (← read rowIndex k)
  update value k (· * (li * rj))

/-- **`diag(l)·M·diag(r)`.** -/
def scaleRowsCols (A : Csc α) (l r : Array α) : Checked (Csc α) := do
  require (l.size = A.nrows) .lengthMismatch
  require (r.size = A.ncols) .lengthMismatch
  let value ← A.columnIndices.foldlM (fun value j => do
    let rj ← read r j
    (← A.slots j).foldlM (scaleColumn A.rowIndex l rj) value) A.value
  return { A with value := value }

end Csc

end SplitQP
