/-!
# Faults — computations that stop without an answer

A fault is a broken rule of use: two vectors of different lengths, a
position outside an array, storage nobody can provide. It is kept apart
from the errors a caller is told about, so that "no input faults" can be
stated. `Checked β` is a computation that answers or faults; `require`,
`read` and `write` are its only sources of faults.
-/

namespace SplitQP

/-- The rule of use that was broken. -/
inductive Fault where
  /-- Two arrays that belong together differ in length. -/
  | lengthMismatch
  /-- A position lies outside its array. -/
  | outOfRange
  /-- Storage larger than any address space was asked for. -/
  | capacity
  /-- A number of seconds is not a span of time. -/
  | timeSpan
  deriving DecidableEq, Repr

/-- A computation that answers, or stops at a fault. -/
abbrev Checked (β : Type) : Type := Except Fault β

namespace Checked

/-- Goes on exactly when `p` holds. -/
def require (p : Prop) [Decidable p] (f : Fault) : Checked Unit :=
  if p then .ok () else .error f

/-- The entry at position `i`. -/
def read {β : Type} (xs : Array β) (i : Nat) : Checked β :=
  match xs[i]? with
  | some x => .ok x
  | none => .error .outOfRange

/-- Replaces the entry at position `i`. -/
def write {β : Type} (xs : Array β) (i : Nat) (x : β) : Checked (Array β) :=
  if h : i < xs.size then .ok (xs.set i x) else .error .outOfRange

/-- Changes the entry at position `i` by `f`. -/
def update {β : Type} (xs : Array β) (i : Nat) (f : β → β) : Checked (Array β) :=
  if i < xs.size then .ok (xs.modify i f) else .error .outOfRange

theorem require_eq_ok {p : Prop} [Decidable p] {f : Fault} (h : p) : require p f = .ok () :=
  if_pos h

theorem read_eq_ok {β : Type} {xs : Array β} {i : Nat} (h : i < xs.size) :
    read xs i = .ok xs[i] := by
  simp [read, h]

theorem write_eq_ok {β : Type} {xs : Array β} {i : Nat} {x : β} (h : i < xs.size) :
    write xs i x = .ok (xs.set i x) := by
  simp [write, h]

theorem update_eq_ok {β : Type} {xs : Array β} {i : Nat} {f : β → β} (h : i < xs.size) :
    update xs i f = .ok (xs.modify i f) := by
  simp [update, h]

end Checked

end SplitQP
