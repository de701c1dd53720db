import SplitQP.Proofs.Call.Coordinates
import SplitQP.Call.Program
/-!
# How courses end

The steps of a course do not bear on how it ends: its ending is the
computation left when they are taken away (`ending_bind`). An attempt
`Ends` when it comes to an answer or a refusal, whatever steps it takes on
the way. Borrowing, giving back and checking end so, and a program is put
together in the same way, with room for both of its matrices
(`Program.assemble_ends`).
-/

namespace SplitQP

open Checked

namespace Course

variable {σ β γ ε : Type}

@[simp] theorem ending_bind (c : Course σ β) (f : β → Course σ γ) :
    (c >>= f).ending = (c.ending >>= fun b => (f b).ending) := by
  cases h : c.ending with
  | ok b => rw [bind_of_ok h, ok_bind]
  | error e => rw [bind_of_error h, error_bind]

@[simp] theorem ending_onFault (c : Course σ β) (ss : List σ) :
    (c.onFault ss).ending = c.ending := by
  rw [onFault]
  split <;> rfl

@[simp] theorem ending_unlessDone (c : Course σ (Except ε β)) (ss : List σ) :
    (c.unlessDone ss).ending = c.ending := by
  rw [unlessDone]
  split <;> rfl

/-- One course after the other. -/
theorem ensures_bind {c : Course σ β} {f : β → Course σ γ} {P : β → Prop} {Q : γ → Prop}
    (h : Ensures c.ending P) (hf : ∀ b, P b → Ensures (f b).ending Q) :
    Ensures (c >>= f).ending Q := by
  rw [ending_bind]
  exact h.bind hf

/-- After steps alone. -/
theorem ensures_then {c : Course σ Unit} {f : Unit → Course σ γ} {Q : γ → Prop}
    (hc : c.ending = .ok ()) (hf : Ensures (f ()).ending Q) : Ensures (c >>= f).ending Q :=
  ensures_bind (P := fun _ => True) (.of_eq hc trivial) fun _ _ => hf

theorem ensures_onFault {c : Course σ β} {P : β → Prop} (h : Ensures c.ending P) (ss : List σ) :
    Ensures (c.onFault ss).ending P := by
  rw [ending_onFault]
  exact h

end Course

namespace Attempt

variable {α β γ : Type} {P : β → Prop} {Q : γ → Prop}

/-- **An attempt ends** with a refusal, or with an answer as `P` says. -/
def Ends (x : Attempt α β) (P : β → Prop) : Prop :=
  Ensures x.run.ending fun r => ∀ b, r = .ok b → P b

theorem ends_pure {b : β} (h : P b) : (pure b : Attempt α β).Ends P := by
  refine .ok fun b' hb' => ?_
  cases hb'
  exact h

/-- One part after the other; a refusal ends both. -/
theorem Ends.bind {x : Attempt α β} {f : β → Attempt α γ} (h : x.Ends P)
    (hf : ∀ b, P b → (f b).Ends Q) : (x >>= f).Ends Q := by
  rw [Ends, ExceptT.run_bind]
  refine Course.ensures_bind h fun r hr => ?_
  cases r with
  | error e => exact .ok fun c hc => by cases hc
  | ok b => exact hf b (hr b rfl)

theorem ends_ofExcept (e : Except CallError β) :
    (Attempt.ofExcept e : Attempt α β).Ends fun b => e = .ok b := .ok fun _ hb => hb

/-- A course ends an attempt with its answer. -/
theorem ends_lift {c : Course (Step α) β} (h : Ensures c.ending P) :
    Attempt.Ends (ExceptT.lift c) P := by
  rw [Ends, ExceptT.run_lift, map_eq_pure_bind]
  refine Course.ensures_bind h fun b hb => .ok fun b' hb' => ?_
  cases hb'
  exact hb

theorem ends_step (s : Step α) : (Attempt.step s).Ends fun _ => True := ends_lift (.ok trivial)

theorem ends_giveBack (tags : List LoanTag) :
    (Attempt.giveBack tags : Attempt α Unit).Ends fun _ => True := ends_lift (.ok trivial)

/-- What is given back does not bear on the ending. -/
theorem Ends.orGiveBack {act : Attempt α β} (h : act.Ends P) (tags : List LoanTag) :
    (Attempt.orGiveBack tags act).Ends P := by
  rw [Ends, Attempt.orGiveBack, ExceptT.run_mk, Course.ending_unlessDone]
  exact h

end Attempt

/-! ## A program is put together -/

section Program

variable {α : Type} [Scalar α]

open Attempt

theorem TripletLoans.build_ends (t : TripletLoans α) (matrix : String) (nrows ncols : ℕ) :
    (t.build matrix nrows ncols).Ends (Csc.Built nrows ncols) := by
  have hbuilt : Attempt.Ends (α := α)
      (ExceptT.mk (Course.ofChecked (t.coordinates.toCsc matrix nrows ncols)))
      fun A => A.1.Built nrows ncols := t.coordinates.toCsc_ensures matrix nrows ncols
  rw [build]
  refine (hbuilt.orGiveBack t.tags).bind ?_
  rintro ⟨A, dropped⟩ hA
  refine (ends_step _).bind fun _ _ => (ends_giveBack _).bind fun _ _ => ends_pure hA

/-- **The matrices of a program** have its size, and room. -/
structure Program.HasRoom (p : Program α) : Prop where
  quadratic : p.P.Built p.n p.n
  linear : p.A.Built p.m p.n

/-- **Putting a program together ends.** -/
theorem Program.assemble_ends (n m : ℤ) (q : Loan α) (P A : TripletLoans α) (l u : Loan α) :
    (Program.assemble n m q P A l u).Ends Program.HasRoom := by
  rw [assemble]
  refine ((ends_ofExcept _).orGiveBack _).bind ?_
  rintro ⟨n, m⟩ -
  refine ((P.build_ends _ n n).orGiveBack _).bind fun quadratic hquadratic => ?_
  refine ((A.build_ends _ m n).orGiveBack _).bind fun linear hlinear => ?_
  exact (ends_step _).bind fun _ _ => ends_pure ⟨hquadratic, hlinear⟩

end Program

end SplitQP
