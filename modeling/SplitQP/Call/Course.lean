import SplitQP.Fault
/-!
# Courses — computations that leave a history

A course takes steps, which stay on record, and ends with an answer or at
a fault. What was done before a fault is not undone. Everything that can
be observed of a course is its steps and its end.
-/

namespace SplitQP

/-- The steps taken, and how it ended. -/
structure Course (σ β : Type) where
  steps : List σ
  ending : Checked β

namespace Course

variable {σ τ β γ : Type}

/-- Ends with an answer at once. -/
def answer (b : β) : Course σ β := ⟨[], .ok b⟩

/-- Goes on with `f` unless there was a fault. -/
def andThen (c : Course σ β) (f : β → Course σ γ) : Course σ γ :=
  match c.ending with
  | .ok b => ⟨c.steps ++ (f b).steps, (f b).ending⟩
  | .error e => ⟨c.steps, .error e⟩

instance : Monad (Course σ) where
  pure := answer
  bind := andThen

/-- Takes one step. -/
def step (s : σ) : Course σ Unit := ⟨[s], .ok ()⟩

/-- Takes steps in order. -/
def walk (ss : List σ) : Course σ Unit := ⟨ss, .ok ()⟩

/-- A computation without steps. -/
def ofChecked (c : Checked β) : Course σ β := ⟨[], c⟩

/-- Each step as a step of another kind. -/
def mapSteps (f : σ → τ) (c : Course σ β) : Course τ β := ⟨c.steps.map f, c.ending⟩

/-- Takes further steps at a fault. -/
def onFault (c : Course σ β) (ss : List σ) : Course σ β :=
  match c.ending with
  | .ok _ => c
  | .error _ => ⟨c.steps ++ ss, c.ending⟩

/-- Takes further steps at a fault, and where the answer is an error. -/
def unlessDone {ε : Type} (c : Course σ (Except ε β)) (ss : List σ) : Course σ (Except ε β) :=
  match c.ending with
  | .ok (.ok _) => c
  | _ => ⟨c.steps ++ ss, c.ending⟩

@[simp]
theorem steps_pure (b : β) : (pure b : Course σ β).steps = [] := rfl

@[simp]
theorem ending_pure (b : β) : (pure b : Course σ β).ending = .ok b := rfl

theorem bind_of_ok {c : Course σ β} {f : β → Course σ γ} {b : β} (h : c.ending = .ok b) :
    c >>= f = ⟨c.steps ++ (f b).steps, (f b).ending⟩ := by
  simp [bind, andThen, h]

theorem bind_of_error {c : Course σ β} {f : β → Course σ γ} {e : Fault}
    (h : c.ending = .error e) : c >>= f = ⟨c.steps, .error e⟩ := by
  simp [bind, andThen, h]

theorem map_id (c : Course σ β) : id <$> c = c := by
  obtain ⟨ss, ending⟩ := c
  cases ending <;> simp [Functor.map, andThen, answer]

theorem pure_then (b : β) (f : β → Course σ γ) : pure b >>= f = f b := by
  simp [bind, andThen, pure, answer]

theorem bind_assoc {δ : Type} (c : Course σ β) (f : β → Course σ γ) (g : γ → Course σ δ) :
    c >>= f >>= g = c >>= fun b => f b >>= g := by
  obtain ⟨ss, ending⟩ := c
  cases ending with
  | error e => simp [bind, andThen]
  | ok b => cases h : (f b).ending <;> simp [bind, andThen, h]

instance : LawfulMonad (Course σ) := LawfulMonad.mk' _ map_id pure_then bind_assoc

/-- What comes later leaves the steps already taken. -/
theorem steps_prefix_bind (c : Course σ β) (f : β → Course σ γ) :
    c.steps <+: (c >>= f).steps := by
  cases h : c.ending with
  | ok b => simp only [bind_of_ok h, List.prefix_append]
  | error e => simp only [bind_of_error h, List.prefix_rfl]

end Course

end SplitQP
