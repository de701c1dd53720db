import SplitQP.Dense
import SplitQP.Sparse.Matrix
import SplitQP.Factor.Error
/-!
# Numeric factorisation, row by row

Row `k` of the unit lower triangular factor solves a triangular system
with the rows above it. Its pattern is the union of the tree paths that
start at the rows stored in column `k`. Each path is written to the
bottom of a stack and then moved in front of the pattern found so far,
which lies at the top, so that every column comes after the columns that
feed into it. The new entries go to the next free slot of their columns.
-/

namespace SplitQP

open Checked

/-- Scratch of a factorisation: the marks of the current pattern, the stack,
the next free slot of each column, and a dense row that is zero between
uses. -/
structure Scratch (α : Type) where
  marked : Array Bool
  stack : Array Nat
  next : Array Nat
  row : Array α

/-- What a factorisation writes: the entries of the unit lower triangular
factor by storage position, the pivots and their inverses. -/
structure Pivots (α : Type) where
  rowIndex : Array Nat
  value : Array α
  d : Array α
  dinv : Array α
  deriving Repr, BEq

/-- The pattern of a row under construction. It occupies the stack from `top`
on; the current path occupies its first `len` places. -/
structure Pattern where
  marked : Array Bool
  stack : Array Nat
  len : Nat
  top : Nat

namespace Pattern

/-- Pushes the path from `i` towards the root, up to the first marked column
or to the last column before `k`. A path longer than `room` faults. -/
def climb (parent : Array (Option Nat)) (k : Nat) : Nat → Nat → Pattern → Checked Pattern
  | room, i, s => do
    if ← read s.marked i then
      return s
    else match room with
      | 0 => throw .outOfRange
      | room + 1 =>
        let s := { s with
          marked := ← write s.marked i true
          stack := ← write s.stack s.len i
          len := s.len + 1 }
        match ← read parent i with
        | none => return s
        | some p => if p < k then climb parent k room p s else return s

/-- Moves the first `len` places of the stack, last one first, to the places
before `top`. -/
def raise : Nat → Pattern → Checked Pattern
  | 0, s => return { s with len := 0 }
  | len + 1, s => do
    require (0 < s.top) .outOfRange
    let stack ← write s.stack (s.top - 1) (← read s.stack len)
    raise len { s with stack := stack, len := len, top := s.top - 1 }

/-- Adds the path that starts at column `i`. -/
def addPath (parent : Array (Option Nat)) (k i : Nat) (s : Pattern) : Checked Pattern := do
  let s ← climb parent k s.stack.size i s
  raise s.len s

end Pattern

/-- A row being gathered: its pivot, its dense values and its pattern. -/
structure Gathered (α : Type) where
  pivot : α
  row : Array α
  pattern : Pattern

variable {α : Type} [Scalar α]

namespace Scratch

/-- Scratch for `n` columns, before its first use. -/
def initial (n : Nat) : Scratch α :=
  ⟨Array.replicate n false, Array.replicate n 0, Array.replicate n 0, Dense.constant n 0⟩

/-- **Prepares scratch for a factorisation** of `n` columns, whatever it was used
for. Only the stack is left as it is. -/
def restart (t : Scratch α) (colStart : Array Nat) (n : Nat) : Checked (Scratch α) := do
  require (n ≤ colStart.size) .outOfRange
  require (t.next.size = n) .lengthMismatch
  return { t with
    marked := t.marked.map fun _ => false
    next := colStart.take n
    row := t.row.map fun _ => 0 }

end Scratch

/-- Takes in one stored entry of column `k`. -/
def gatherEntry (parent : Array (Option Nat)) (k : Nat) (g : Gathered α) (e : Nat × α) :
    Checked (Gathered α) := do
  if e.1 = k then
    return { g with pivot := g.pivot + e.2 }
  else
    let row ← update g.row e.1 (· + e.2)
    return { g with row := row, pattern := ← g.pattern.addPath parent k e.1 }

/-- Subtracts `value[p]·y` at row `rowIndex[p]`. -/
def subtractSlot (w : Pivots α) (y : α) (row : Array α) (p : Nat) : Checked (Array α) := do
  let i ← read w.rowIndex p
  let v ← read w.value p
  update row i (· - v * y)

/-- Computes the entry of row `k` in column `j`, and what it takes from the
pivot. -/
def eliminateColumn (colStart : Array Nat) (k : Nat)
    (s : α × Scratch α × Pivots α) (j : Nat) : Checked (α × Scratch α × Pivots α) := do
  let (pivot, t, w) := s
  let y ← read t.row j
  let free ← read t.next j
  let first ← read colStart j
  let row ← (List.range' first (free - first)).foldlM (subtractSlot w y) t.row
  let entry := y * (← read w.dinv j)
  let w := { w with
    rowIndex := ← write w.rowIndex free k
    value := ← write w.value free entry }
  let t := { t with
    marked := ← write t.marked j false
    next := ← write t.next j (free + 1)
    row := ← write row j 0 }
  return (pivot - y * entry, t, w)

/-- State between two rows: scratch, what is written so far, and the number
of positive pivots. -/
structure RowState (α : Type) where
  scratch : Scratch α
  pivots : Pivots α
  positive : Nat

/-- **Computes row `k`,** and says whether its pivot can be inverted. -/
def factorRow (upper : Csc α) (parent : Array (Option Nat)) (colStart : Array Nat)
    (s : RowState α) (k : Nat) : Checked (RowState α × Bool) := do
  let t := s.scratch
  let g ← (← upper.column k).foldlM (gatherEntry parent k)
    ⟨0, t.row, ⟨t.marked, t.stack, 0, t.stack.size⟩⟩
  let columns := g.pattern.stack.extract g.pattern.top g.pattern.stack.size
  let t := { t with marked := g.pattern.marked, stack := g.pattern.stack, row := g.row }
  let (pivot, t, w) ← columns.toList.foldlM (eliminateColumn colStart k) (g.pivot, t, s.pivots)
  let w := { w with d := ← write w.d k pivot }
  if Scalar.eq pivot 0 then
    return (⟨t, w, s.positive⟩, false)
  else
    let w := { w with dinv := ← write w.dinv k (Scalar.recip pivot) }
    return (⟨t, w, if Scalar.lt 0 pivot then s.positive + 1 else s.positive⟩, true)

/-- Computes the rows `k, k + 1, …`, as many as `count`, up to the first zero
pivot. -/
def factorRows (upper : Csc α) (parent : Array (Option Nat)) (colStart : Array Nat) :
    Nat → Nat → RowState α → Checked (RowState α × Except LdlError Nat)
  | 0, _, s => return (s, .ok s.positive)
  | count + 1, k, s => do
    match ← factorRow upper parent colStart s k with
    | (s, true) => factorRows upper parent colStart count (k + 1) s
    | (s, false) => return (s, .error (.zeroPivot k))

/-- **The numeric factorisation,** in scratch that may have been used before. Answers
what was written, also where a zero pivot ended it, the scratch as it is left, and
the number of positive pivots. -/
def factoriseIn (upper : Csc α) (parent : Array (Option Nat)) (colStart : Array Nat)
    (w : Pivots α) (t : Scratch α) : Checked (Pivots α × Scratch α × Except LdlError Nat) := do
  let n := w.d.size
  let t ← t.restart colStart n
  let (s, outcome) ← factorRows upper parent colStart n 0 ⟨t, w, 0⟩
  return (s.pivots, s.scratch, outcome)

/-- The numeric factorisation in scratch of its own. -/
def factorise (upper : Csc α) (parent : Array (Option Nat)) (colStart : Array Nat)
    (w : Pivots α) : Checked (Pivots α × Except LdlError Nat) := do
  let (w, _, outcome) ← factoriseIn upper parent colStart w (.initial w.d.size)
  return (w, outcome)

end SplitQP
