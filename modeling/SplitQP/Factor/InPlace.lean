import SplitQP.Factor.Ldl
/-!
# Factorisation in place

Factors are kept together with the scratch they are computed in, so that
factoring again and solving need no storage of their own. Nothing is
cleaned up afterwards: a factorisation that met a zero pivot leaves the
row it had begun, and solving leaves the solution, in the order of
elimination, where the dense row was.
-/

namespace SplitQP

open Checked

/-- Factors and the scratch they are computed in. -/
structure Factors (α : Type) where
  ldl : Ldl α
  scratch : Scratch α

namespace Factors

variable {α : Type} [Scalar α]

omit [Scalar α] in
/-- Overwrites entries. Takes effect with the next `refactor`. -/
def setEntries (f : Factors α) (positions : Array Nat) (values : Array α) :
    Checked (Factors α) := do
  return { f with ldl := ← f.ldl.setEntries positions values }

/-- Computes the factors again from the current entries. -/
def refactor (f : Factors α) : Checked (Factors α × Except LdlError Unit) := do
  let (ldl, scratch, outcome) ← f.ldl.refactorIn f.scratch
  return (⟨ldl, scratch⟩, outcome)

/-- **Factors `A`** in the given elimination order. -/
def factor (A : Csc α) (order : EliminationOrder) : Checked (Except LdlError (Factors α)) := do
  match ← Ldl.prepare A order with
  | .error e => return .error e
  | .ok ldl =>
    match ← refactor ⟨ldl, .initial ldl.dim⟩ with
    | (f, .ok ()) => return .ok f
    | (_, .error e) => return .error e

/-- Writes the entry of `b` for step `k` at position `k`. -/
def gather (b : Array α) (x : Array α) (pk : Nat × Nat) : Checked (Array α) := do
  write x pk.2 (← read b pk.1)

/-- **Solves `A·x = b`,** in the dense row of the scratch. -/
def solve (f : Factors α) (b : Array α) : Checked (Array α × Factors α) := do
  require (b.size = f.ldl.dim) .lengthMismatch
  let steps := (f.ldl.perm.take f.scratch.row.size).toList.zipIdx
  let x ← steps.foldlM (gather b) f.scratch.row
  let cols ← f.ldl.lower.columns
  require (Csc.rowsBelow f.ldl.dim cols) .outOfRange
  let x := Ldl.solvePermuted cols f.ldl.pivots.dinv x
  let b ← (x.zip f.ldl.perm).toList.foldlM Ldl.putBack b
  return (b, { f with scratch := { f.scratch with row := x } })

/-! ## Sequences of operations -/

/-- What can be done to factors. -/
inductive Operation (α : Type) where
  | setEntries (positions : Array Nat) (values : Array α)
  | refactor
  | solve (b : Array α)

/-- Carries out an operation; of its answer only what it does to the factors is kept. -/
def apply (f : Factors α) : Operation α → Checked (Factors α)
  | .setEntries positions values => f.setEntries positions values
  | .refactor => return (← f.refactor).1
  | .solve b => return (← f.solve b).2

/-- **Carries out operations,** one after the other. -/
def applyAll (f : Factors α) (operations : List (Operation α)) : Checked (Factors α) :=
  operations.foldlM apply f

end Factors

end SplitQP
