import SplitQP.Sparse.Reshape
import SplitQP.Sparse.Product
import SplitQP.Admm.Problem
/-!
# Equilibration

The scaled program has `c·D·P·D`, `c·D·q`, `E·A·D`, `E·l` and `E·u` in
place of `P`, `q`, `A`, `l` and `u`. Each round divides rows and columns
by the square roots of their largest magnitudes and then scales the
objective. A point of the scaled program stands for `x = D·x̄`,
`z = E⁻¹·z̄` and `y = E·ȳ / c`.
-/

namespace SplitQP

open Checked

/-- Smallest factor that is used as it is. -/
def minScaling {α : Type} [OfScientific α] : α := 1e-4

/-- Largest factor that is used. -/
def maxScaling {α : Type} [OfScientific α] : α := 1e4

/-- The factors of the scaling, and their inverses. -/
structure Equilibration (α : Type) where
  d : Array α
  dinv : Array α
  e : Array α
  einv : Array α
  c : α
  cinv : α
  deriving Repr

namespace Equilibration

variable {α : Type} [Scalar α]

/-- No scaling of a program with `n` variables and `m` constraints. -/
def identity (n m : Nat) : Equilibration α :=
  ⟨Dense.constant n 1, Dense.constant n 1, Dense.constant m 1, Dense.constant m 1, 1, 1⟩

/-- One where `v` is too small to divide by, and no more than the largest
factor. -/
def limit (v : α) : α :=
  if Scalar.lt v minScaling then 1
  else if Scalar.lt maxScaling v then maxScaling
  else v

/-- The factor for a row or column of largest magnitude `v`. -/
def factorOf (v : α) : α := Scalar.recip (Scalar.sqrt (limit v))

/-- A program under scaling, with the factors so far. -/
structure Scaled (α : Type) where
  problem : Problem α
  d : Array α
  e : Array α
  c : α

/-- Divides rows and columns by the square roots of their largest
magnitudes. -/
def balance (s : Scaled α) : Checked (Scaled α) := do
  let p := s.problem
  let normsP ← p.P.colNormsSym (Dense.constant p.n 1)
  let normsA ← p.A.colNorms (Dense.constant p.n 0)
  let d := normsP.zipWith (fun a b => factorOf (Scalar.max a b)) normsA
  let e := (← p.A.rowNorms (Dense.constant p.m 1)).map factorOf
  let P ← p.P.scaleRowsCols d d
  let A ← p.A.scaleRowsCols e d
  let q ← Dense.hadamard p.q d
  return {
    problem := { p with P := P, A := A, q := q }
    d := ← Dense.hadamard s.d d
    e := ← Dense.hadamard s.e e
    c := s.c }

/-- Scales the objective by its size. -/
def scaleObjective (s : Scaled α) : Checked (Scaled α) := do
  let p := s.problem
  let norms ← p.P.colNormsSym (Dense.constant p.n 1)
  let size := Scalar.max (Dense.mean norms) (limit (Dense.normInf p.q))
  let c := Scalar.recip (limit size)
  return { s with
    problem := { p with P := p.P.scale c, q := Dense.scale c p.q }
    c := s.c * c }

/-- `count` rounds. -/
def rounds : Nat → Scaled α → Checked (Scaled α)
  | 0, s => return s
  | count + 1, s => do rounds count (← scaleObjective (← balance s))

/-- **Scales a program** in `count` rounds. -/
def equilibrate (count : Nat) (p : Problem α) : Checked (Problem α × Equilibration α) := do
  let s ← rounds count ⟨p, Dense.constant p.n 1, Dense.constant p.m 1, 1⟩
  let scaled := { s.problem with
    l := ← Dense.hadamard p.l s.e
    u := ← Dense.hadamard p.u s.e }
  return (scaled, {
    d := s.d
    dinv := s.d.map Scalar.recip
    e := s.e
    einv := s.e.map Scalar.recip
    c := s.c
    cinv := Scalar.recip s.c })

end Equilibration

end SplitQP
