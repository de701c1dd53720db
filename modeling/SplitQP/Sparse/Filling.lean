import SplitQP.Sparse.Triplets
import SplitQP.Sparse.Reshape
/-!
# Sparse matrices — filling storage in place

Storage is filled in three passes. Entries are counted by column, running
totals turn the counts into starts, and a cursor in each column says where
its next entry goes: `Filling.put` writes there and moves the cursor on. A
count that is too small would run into the next column, so what is written
is noted (`Filling.written`). Dropping small entries, merging duplicates and
selecting rows go over storage in the same way, one reading position and one
writing position.
-/

namespace SplitQP

open Checked

/-! ## Counting -/

/-- Counts more entries for one column. -/
def tally (counts : Array Nat) (item : Nat × Nat) : Checked (Array Nat) :=
  update counts item.1 (· + item.2)

/-- The total of the counts before each of `counts`, from `total` on. -/
def totalsBefore (total : Nat) : List Nat → List Nat
  | [] => []
  | count :: counts => total :: totalsBefore (total + count) counts

/-- Adds what is counted for column `j` to the column after it. -/
def accumulate (counts : Array Nat) (j : Nat) : Checked (Array Nat) := do
  let count ← read counts j
  update counts (j + 1) (· + count)

/-! ## Filling -/

/-- Storage while it is filled. -/
structure Filling (α : Type) where
  /-- Where the next entry of each column goes. -/
  next : Array Nat
  rowIndex : Array Nat
  value : Array α
  /-- The positions written, in the order of writing. -/
  written : Array Nat
  deriving Repr

namespace Filling

variable {α : Type}

/-- Nothing is written yet. -/
def blank [Zero α] (next : Array Nat) (room : Nat) : Filling α :=
  ⟨next, Array.replicate room 0, Array.replicate room 0, #[]⟩

/-- Writes an entry where the next one of its column goes. -/
def put (s : Filling α) (e : Entry α) : Checked (Filling α) := do
  let position ← read s.next e.col
  return {
    rowIndex := ← write s.rowIndex position e.row
    value := ← write s.value position e.value
    next := ← update s.next e.col (· + 1)
    written := s.written.push position }

end Filling

namespace Triplets

variable {α : Type}

/-- An entry whose indices are in range, as it is stored. -/
def stored (e : Int × Int × α) : Entry α := ⟨e.1.toNat, e.2.1.toNat, e.2.2⟩

/-- **The matrix by columns, in place,** with the positions in the order in which
they were written. Counts are kept one place on, so that running totals are starts. -/
def fill [Zero α] (t : Triplets α) : Checked (Except SparseError (Csc α × Array Nat)) := do
  match (do t.checkBounds; Csc.checkRoom t.ncols t.nnz : Except SparseError Unit) with
  | .error e => return .error e
  | .ok () =>
    let entries := t.toList.map stored
    let counts ← (entries.map fun e => (e.col + 1, 1)).foldlM tally
      (Array.replicate (t.ncols + 1) 0)
    let starts ← (List.range t.ncols).foldlM accumulate counts
    let s ← entries.foldlM Filling.put (.blank (starts.take t.ncols) t.nnz)
    return .ok (⟨t.nrows, t.ncols, starts, s.rowIndex, s.value⟩, s.written)

end Triplets

namespace Csc

variable {α : Type}

/-! ## Dropping small entries -/

section Compact

variable [Scalar α]

/-- A matrix while its small entries are dropped: the positions to read and
to write next. -/
structure Compaction (α : Type) where
  colStart : Array Nat
  rowIndex : Array Nat
  value : Array α
  reading : Nat
  writing : Nat

namespace Compaction

/-- Reads one entry, and writes it unless it is small. -/
def step (threshold : α) (s : Compaction α) : Checked (Compaction α) := do
  let row ← read s.rowIndex s.reading
  let v ← read s.value s.reading
  if isKept threshold v then
    return { s with
      rowIndex := ← write s.rowIndex s.writing row
      value := ← write s.value s.writing v
      reading := s.reading + 1
      writing := s.writing + 1 }
  else
    return { s with reading := s.reading + 1 }

/-- Reads on to the end of column `j`, which then ends where writing stands. -/
def column (threshold : α) (s : Compaction α) (j : Nat) : Checked (Compaction α) := do
  let stop ← read s.colStart (j + 1)
  let s ← (List.range (stop - s.reading)).foldlM (fun s _ => s.step threshold) s
  return { s with colStart := ← write s.colStart (j + 1) s.writing }

end Compaction

/-- **Drops entries of magnitude at most `threshold`, in place,** and counts them. -/
def compact (A : Csc α) (threshold : α) : Checked (Csc α × Nat) := do
  let s ← A.columnIndices.foldlM (Compaction.column threshold)
    ⟨A.colStart, A.rowIndex, A.value, 0, 0⟩
  return (⟨A.nrows, A.ncols, s.colStart, s.rowIndex.take s.writing, s.value.take s.writing⟩,
    A.rowIndex.size - s.writing)

end Compact

/-! ## Canonical form -/

/-- What is merged so far. -/
structure Merging (α : Type) where
  colStart : Array Nat
  rowIndex : Array Nat
  value : Array α

namespace Merging

variable [Add α]

/-- Adds an entry to the last one where that is in the same row and not
before `start`, and stores it otherwise. -/
def push (start : Nat) (s : Merging α) (p : Nat × α) : Merging α :=
  if start < s.rowIndex.size ∧ s.rowIndex.back? = some p.1 ∧ 0 < s.value.size then
    { s with value := s.value.modify (s.value.size - 1) (· + p.2) }
  else
    { s with rowIndex := s.rowIndex.push p.1, value := s.value.push p.2 }

/-- The entries of column `j` in the order of their rows. Entries in one row
keep their order. -/
def column (A : Csc α) (s : Merging α) (j : Nat) : Checked (Merging α) := do
  let col := (← A.column j).mergeSort (·.1 ≤ ·.1)
  let s := col.foldl (push (← read s.colStart j)) s
  return { s with colStart := ← write s.colStart (j + 1) s.rowIndex.size }

end Merging

/-- **Sorted rows and no duplicates, by sorting.** -/
def merge [Add α] (A : Csc α) : Checked (Csc α) := do
  require ((← A.nnz) ≤ maxEntries) .capacity
  let s ← A.columnIndices.foldlM (Merging.column A) ⟨Array.replicate (A.ncols + 1) 0, #[], #[]⟩
  ofFields A.nrows A.ncols s.colStart s.rowIndex s.value

/-! ## Selecting rows -/

section Select

/-- Gives the selected rows their new numbers, in their order, and counts them.
What the other rows get is not read. -/
def renumber (mask : Array Bool) : Array Nat × Nat :=
  mask.foldl (fun s isSelected =>
    if isSelected then (s.1.push s.2, s.2 + 1) else (s.1.push 0, s.2)) (#[], 0)

/-- The selected rows while they are copied. -/
structure Selection (α : Type) where
  colStart : Array Nat
  rowIndex : Array Nat
  value : Array α
  writing : Nat

namespace Selection

/-- Reads entry `k`, and copies it if its row is selected. -/
def step (A : Csc α) (mask : Array Bool) (numbers : Array Nat) (s : Selection α) (k : Nat) :
    Checked (Selection α) := do
  let row ← read A.rowIndex k
  if ← read mask row then
    return { s with
      rowIndex := ← write s.rowIndex s.writing (← read numbers row)
      value := ← write s.value s.writing (← read A.value k)
      writing := s.writing + 1 }
  else
    return s

/-- Column `j` starts where writing stands. -/
def column (A : Csc α) (mask : Array Bool) (numbers : Array Nat) (s : Selection α) (j : Nat) :
    Checked (Selection α) := do
  let colStart ← write s.colStart j s.writing
  (← A.slots j).foldlM (step A mask numbers) { s with colStart }

end Selection

/-- **The rows that `mask` marks, by copying.** Storage is sized in a first pass
over the entries and filled in a second one. -/
def select [Scalar α] (A : Csc α) (mask : Array Bool) : Checked (Csc α) := do
  require (mask.size = A.nrows) .lengthMismatch
  let (numbers, count) := renumber mask
  let room := (← A.rowIndex.mapM (read mask)).count true
  let B : Csc α := blank count A.ncols room
  let s ← A.columnIndices.foldlM (Selection.column A mask numbers)
    ⟨B.colStart, B.rowIndex, B.value, 0⟩
  return { B with
    colStart := ← write s.colStart A.ncols s.writing
    rowIndex := s.rowIndex
    value := s.value }

/-- The rows that `mask` marks. -/
def marked (mask : Array Bool) : List Nat :=
  (List.range mask.size).filter fun i => mask.getD i false

/-- Deals `w` out to the marked rows, in their order. The others get zero. -/
def deal [Scalar α] (mask : Array Bool) (w : Array α) : Array α :=
  ((marked mask).zip w.toList).foldl (fun y (i, v) => y.setIfInBounds i v)
    (Dense.constant mask.size 0)

end Select

end Csc

end SplitQP
