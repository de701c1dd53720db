import SplitQP.Proofs.Call.Course
import SplitQP.Call.Solve
/-!
# Reading a history

What a history tells is read off its steps, one kind of step at a time:
what was written to the output buffers (`writes`), what the backend said
(`heard`), and which buffers were borrowed and given back
(`acquisitions`, `releases`). A history put together reads as its parts do;
the steps before a session (`Step.IsPreliminary`) and what a backend says
carry none of the rest. What became of an output buffer depends on what was
written only (`primal_eq_foldl`, `dual_eq_foldl`).
-/

namespace SplitQP

variable {α : Type}

/-! ## Readings -/

/-- Something written to an output buffer. -/
inductive Write (α : Type) where
  | primal (x : Array α)
  | dual (y : Array α)

namespace Write

/-- What handing over a solution writes. -/
def ofSolution : Option (Array α × Array α) → List (Write α)
  | none => []
  | some (x, y) => [.primal x, .dual y]

/-- The primal output after it. -/
def toPrimal (out : Array α) : Write α → Array α
  | primal x => x
  | dual _ => out

/-- The dual output after it. -/
def toDual (out : Array α) : Write α → Array α
  | primal _ => out
  | dual y => y

end Write

namespace Step

/-- What the step writes. -/
def write? : Step α → Option (Write α)
  | primalWritten x => some (.primal x)
  | dualWritten y => some (.dual y)
  | _ => none

/-- The step is something a backend says. -/
def isHeard : Step α → Bool
  | remarked _ | printed _ | logged _ => true
  | _ => false

/-- The buffer the step borrows. -/
def acquisition? : Step α → Option LoanTag
  | acquired loan _ => some loan
  | _ => none

/-- The buffer the step gives back. -/
def release? : Step α → Option LoanTag
  | released loan => some loan
  | _ => none

/-- The step is one of those around a session: borrowing, giving back, putting the
program and the settings together, refusing. -/
def IsPreliminary : Step α → Prop
  | called .. | acquired .. | released _ | built .. | assembled .. | assigned _ | refused _ => True
  | _ => False

/-- The step passes a session from one state to another. -/
def isMove : Step α → Bool
  | moved .. => true
  | _ => false

end Step

namespace History

/-- What was written to the output buffers. -/
def writes (h : History α) : List (Write α) := h.filterMap Step.write?

/-- What the backend said. -/
def heard (h : History α) : History α := h.filter Step.isHeard

/-- The buffers borrowed, in order. -/
def acquisitions (h : History α) : List LoanTag := h.filterMap Step.acquisition?

/-- The buffers given back, in order. -/
def releases (h : History α) : List LoanTag := h.filterMap Step.release?

section Append

variable (h k : History α)

@[simp] theorem writes_append : writes (h ++ k) = writes h ++ writes k := List.filterMap_append

@[simp] theorem heard_append : heard (h ++ k) = heard h ++ heard k := List.filter_append ..

@[simp] theorem acquisitions_append : acquisitions (h ++ k) = acquisitions h ++ acquisitions k :=
  List.filterMap_append

@[simp] theorem releases_append : releases (h ++ k) = releases h ++ releases k :=
  List.filterMap_append

end Append

theorem length_acquisitions (h : History α) : (acquisitions h).length = acquired h := by
  rw [acquisitions, acquired, List.length_filterMap_eq_countP]
  congr 1
  funext s
  cases s <;> rfl

theorem length_releases (h : History α) : (releases h).length = released h := by
  rw [releases, released, List.length_filterMap_eq_countP]
  congr 1
  funext s
  cases s <;> rfl

/-! ## Output buffers -/

/-- **The primal output depends on what was written only.** -/
theorem primal_eq_foldl (start : Array α) (h : History α) :
    primal start h = (writes h).foldl Write.toPrimal start := by
  induction h generalizing start with
  | nil => rfl
  | cons s h ih =>
    cases s with
    | primalWritten x => exact ih x
    | _ => exact ih start

theorem dual_eq_foldl (start : Array α) (h : History α) :
    dual start h = (writes h).foldl Write.toDual start := by
  induction h generalizing start with
  | nil => rfl
  | cons s h ih =>
    cases s with
    | dualWritten y => exact ih y
    | _ => exact ih start

end History

/-! ## Steps of one kind -/

/-- A step around a session is no part of one. -/
theorem Step.IsPreliminary.readings {s : Step α} (h : s.IsPreliminary) :
    s.write? = none ∧ s.event? = none ∧ s.isHeard = false ∧ s.isMove = false := by
  cases s with
  | called | acquired | released | built | assembled | assigned | refused =>
    exact ⟨rfl, rfl, rfl, rfl⟩
  | _ => exact h.elim

/-- What is written is nothing else. -/
theorem Step.readings_of_write {s : Step α} (h : s.write?.isSome) :
    s.isHeard = false ∧ s.event? = none ∧ s.acquisition? = none ∧ s.release? = none := by
  cases s with
  | primalWritten | dualWritten => exact ⟨rfl, rfl, rfl, rfl⟩
  | _ => cases h

/-- What a backend says is nothing else. -/
theorem Step.readings_of_isHeard {s : Step α} (h : s.isHeard = true) :
    s.write? = none ∧ s.event? = none ∧ s.acquisition? = none ∧ s.release? = none ∧
      s.isMove = false := by
  cases s with
  | remarked | printed | logged => exact ⟨rfl, rfl, rfl, rfl, rfl⟩
  | _ => cases h

namespace History

section Preliminary

variable {h : History α} (hprelim : ∀ s ∈ h, s.IsPreliminary)

include hprelim

/-- Nothing is written before a session. -/
theorem writes_of_preliminary : writes h = [] :=
  List.filterMap_eq_nil_iff.mpr fun s hs => (hprelim s hs).readings.1

theorem events_of_preliminary : events h = [] :=
  List.filterMap_eq_nil_iff.mpr fun s hs => (hprelim s hs).readings.2.1

theorem heard_of_preliminary : heard h = [] :=
  List.filter_eq_nil_iff.mpr fun s hs => Bool.eq_false_iff.mp (hprelim s hs).readings.2.2.1

end Preliminary

section Heard

variable (hasLog : Bool) (us : List Utterance)

theorem isHeard_hear (u : Utterance) : (Session.hear (α := α) hasLog u).isHeard = true := by
  cases u with
  | remark r => rfl
  | text bytes => cases hasLog <;> rfl

/-- What a backend says is heard. -/
@[simp] theorem heard_hear :
    heard (us.map (Session.hear (α := α) hasLog)) = us.map (Session.hear hasLog) :=
  List.filter_eq_self.mpr (List.forall_mem_map.mpr fun u _ => isHeard_hear hasLog u)

@[simp] theorem writes_hear : writes (us.map (Session.hear (α := α) hasLog)) = [] :=
  List.filterMap_eq_nil_iff.mpr (List.forall_mem_map.mpr fun u _ =>
    (Step.readings_of_isHeard (isHeard_hear hasLog u)).1)

@[simp] theorem events_hear : events (us.map (Session.hear (α := α) hasLog)) = [] :=
  List.filterMap_eq_nil_iff.mpr (List.forall_mem_map.mpr fun u _ =>
    (Step.readings_of_isHeard (isHeard_hear hasLog u)).2.1)

end Heard

section Released

variable (tags : List LoanTag)

@[simp] theorem releases_released : releases (tags.map (Step.released (α := α))) = tags := by
  induction tags with
  | nil => rfl
  | cons t tags ih => exact congrArg (t :: ·) ih

@[simp] theorem acquisitions_released :
    acquisitions (tags.map (Step.released (α := α))) = [] := by
  induction tags with
  | nil => rfl
  | cons t tags ih => exact ih

@[simp] theorem writes_released : writes (tags.map (Step.released (α := α))) = [] := by
  induction tags with
  | nil => rfl
  | cons t tags ih => exact ih

@[simp] theorem heard_released : heard (tags.map (Step.released (α := α))) = [] := by
  induction tags with
  | nil => rfl
  | cons t tags ih => exact ih

@[simp] theorem events_released : events (tags.map (Step.released (α := α))) = [] := by
  induction tags with
  | nil => rfl
  | cons t tags ih => exact ih

/-- Giving back is done around a session. -/
theorem isPreliminary_released : ∀ s ∈ tags.map (Step.released (α := α)), s.IsPreliminary := by
  intro s hs
  obtain ⟨t, -, rfl⟩ := List.mem_map.mp hs
  trivial

end Released

section Assigned

variable (pairs : List (Assignment α))

@[simp] theorem acquisitions_assigned : acquisitions (pairs.map Step.assigned) = [] := by
  induction pairs with
  | nil => rfl
  | cons a pairs ih => exact ih

@[simp] theorem releases_assigned : releases (pairs.map Step.assigned) = [] := by
  induction pairs with
  | nil => rfl
  | cons a pairs ih => exact ih

/-- Reading settings is done before a session. -/
theorem isPreliminary_assigned : ∀ s ∈ pairs.map Step.assigned, s.IsPreliminary :=
  List.forall_mem_map.mpr fun _ _ => trivial

end Assigned

end History

/-! ## Courses -/

namespace Course

variable {σ β γ : Type} {P : σ → Prop}

/-- **The steps of a course put together.** -/
theorem steps_bind (c : Course σ β) (f : β → Course σ γ) :
    (c >>= f).steps = c.steps ++ match c.ending with
      | .ok b => (f b).steps
      | .error _ => [] := by
  cases h : c.ending with
  | ok b => rw [bind_of_ok h]
  | error e => rw [bind_of_error h, List.append_nil]

theorem step_bind (s : σ) (f : Unit → Course σ γ) :
    Course.step s >>= f = ⟨s :: (f ()).steps, (f ()).ending⟩ := rfl

theorem walk_bind (ss : List σ) (f : Unit → Course σ γ) :
    Course.walk ss >>= f = ⟨ss ++ (f ()).steps, (f ()).ending⟩ := rfl

theorem mapSteps_bind_of_ok {τ : Type} {c : Course σ β} {b : β} (h : c.ending = .ok b) (g : σ → τ)
    (f : β → Course τ γ) :
    c.mapSteps g >>= f = ⟨c.steps.map g ++ (f b).steps, (f b).ending⟩ :=
  bind_of_ok (c := c.mapSteps g) h

theorem mapSteps_bind_of_error {τ : Type} {c : Course σ β} {e : Fault} (h : c.ending = .error e)
    (g : σ → τ) (f : β → Course τ γ) : c.mapSteps g >>= f = ⟨c.steps.map g, .error e⟩ :=
  bind_of_error (c := c.mapSteps g) h

/-- Every step is as `P` says. -/
def Takes (P : σ → Prop) (c : Course σ β) : Prop := ∀ s ∈ c.steps, P s

theorem Takes.bind {c : Course σ β} {f : β → Course σ γ} (h : c.Takes P)
    (hf : ∀ b, c.ending = .ok b → (f b).Takes P) : (c >>= f).Takes P := by
  intro s hs
  rw [steps_bind, List.mem_append] at hs
  rcases hs with hs | hs
  · exact h s hs
  · cases hend : c.ending with
    | ok b =>
      rw [hend] at hs
      exact hf b hend s hs
    | error e =>
      rw [hend] at hs
      cases hs

end Course

end SplitQP
