import Mathlib.Data.Nat.Notation
import Mathlib.Tactic.Common
import SplitQP.Fault
/-!
# Computations that answer

`Ensures c Q` says that `c` does not fault and that its answer satisfies
`Q`. It composes along `do` blocks (`Ensures.bind`) and along loops
(`ensures_foldlM`), so that every operation of the library gets one
statement of this form and its callers never look inside. Where the answer
has a closed form the statement is an equation instead.
-/

namespace SplitQP

namespace Checked

variable {ε β γ σ : Type}

/-! ## Straight-line code -/

@[simp] theorem ok_bind (b : β) (f : β → Except ε γ) : (Except.ok b >>= f) = f b := rfl

@[simp] theorem error_bind (e : ε) (f : β → Except ε γ) :
    (Except.error e >>= f) = Except.error e := rfl

@[simp] theorem pure_eq_ok (b : β) : (pure b : Except ε β) = .ok b := rfl

@[simp] theorem throw_eq_error (e : ε) : (throw e : Except ε β) = .error e := rfl

/-- A block that answers has a first part that answers. -/
theorem bind_eq_ok {c : Except ε β} {f : β → Except ε γ} {r : γ} :
    (c >>= f) = .ok r ↔ ∃ b, c = .ok b ∧ f b = .ok r := by
  cases c with
  | error e => simp
  | ok b => simp

theorem require_eq_ok_iff {p : Prop} [Decidable p] {f : Fault} {u : Unit} :
    require p f = .ok u ↔ p := by
  unfold require
  split <;> simp [*]

/-- The error that an answer is, where it is one. -/
def refusal? : Except ε (Except γ β) → Option γ
  | .ok (.error e) => some e
  | _ => none

theorem eq_of_refusal? {c : Except ε (Except γ β)} {e : γ} (h : refusal? c = some e) :
    c = .ok (.error e) := by
  unfold refusal? at h
  split at h
  · rw [Option.some.inj h]
  · cases h

/-- What passes a test on its answer has one. -/
theorem exists_of_toOption_any {c : Except ε β} {test : β → Bool}
    (h : c.toOption.any test = true) : ∃ b, c = .ok b ∧ test b = true := by
  cases c with
  | error e => cases h
  | ok b => exact ⟨b, rfl, h⟩

/-- `c` answers, and what it answers satisfies `Q`. -/
def Ensures (c : Except ε β) (Q : β → Prop) : Prop := ∃ b, c = .ok b ∧ Q b

namespace Ensures

variable {c : Except ε β} {f : β → Except ε γ} {P Q : β → Prop} {R : γ → Prop}

theorem ok {b : β} (h : Q b) : Ensures (.ok b : Except ε β) Q := ⟨b, rfl, h⟩

theorem mono (h : Ensures c P) (hPQ : ∀ b, P b → Q b) : Ensures c Q := by
  obtain ⟨b, hc, hb⟩ := h
  exact ⟨b, hc, hPQ b hb⟩

/-- One part after the other. -/
theorem bind (h : Ensures c P) (hf : ∀ b, P b → Ensures (f b) R) : Ensures (c >>= f) R := by
  obtain ⟨b, rfl, hb⟩ := h
  exact hf b hb

/-- What is ensured of any answer holds of the answer there is. -/
theorem of_eq_ok (h : Ensures c Q) {b : β} (hc : c = .ok b) : Q b := by
  obtain ⟨b', hc', hb'⟩ := h
  rw [hc] at hc'
  cases hc'
  exact hb'

theorem of_eq {b : β} (hc : c = .ok b) (h : Q b) : Ensures c Q := ⟨b, hc, h⟩

end Ensures

/-! ## Loops -/

/-- **A loop keeps its invariant.** The invariant speaks of the elements taken
so far. -/
theorem ensures_foldlM {f : σ → β → Except ε σ} {I : List β → σ → Prop} {l : List β} {s : σ}
    (h0 : I [] s)
    (step : ∀ before x after s, l = before ++ x :: after → I before s →
      Ensures (f s x) (I (before ++ [x]))) :
    Ensures (l.foldlM f s) (I l) := by
  suffices h : ∀ after before s, l = before ++ after → I before s →
      Ensures (after.foldlM f s) (I l) from h l [] s rfl h0
  intro after
  induction after with
  | nil =>
    intro before s hl hs
    rw [hl, List.append_nil]
    exact .ok hs
  | cons x after ih =>
    intro before s hl hs
    rw [List.foldlM_cons]
    refine (step before x after s hl hs).bind fun s' hs' => ?_
    exact ih (before ++ [x]) s' (by rw [hl]; simp) hs'

/-- A loop over `0, …, n - 1`. -/
theorem ensures_foldlM_range {f : σ → ℕ → Except ε σ} {I : ℕ → σ → Prop} {n : ℕ} {s : σ}
    (h0 : I 0 s) (step : ∀ k s, k < n → I k s → Ensures (f s k) (I (k + 1))) :
    Ensures ((List.range n).foldlM f s) (I n) := by
  induction n with
  | zero => exact .ok h0
  | succ n ih =>
    rw [List.range_succ, List.foldlM_append]
    refine (ih fun k s hk => step k s (by omega)).bind fun s' hs' => ?_
    rw [List.foldlM_cons]
    exact (step n s' (by omega) hs').bind fun s'' hs'' => .ok hs''

/-- What each turn keeps, a loop that answers keeps. -/
theorem of_foldlM_eq_ok {f : σ → β → Except ε σ} {I : σ → Prop} {l : List β} {s s' : σ}
    (step : ∀ s x s', I s → f s x = .ok s' → I s') (hs : I s) (h : l.foldlM f s = .ok s') :
    I s' := by
  induction l generalizing s with
  | nil =>
    cases h
    exact hs
  | cons x l ih =>
    obtain ⟨s₁, hs₁, h⟩ := bind_eq_ok.mp h
    exact ih (step s x s₁ hs hs₁) h

theorem mapM_eq_ok {f : β → Except ε γ} {g : β → γ} {xs : List β}
    (h : ∀ x ∈ xs, f x = .ok (g x)) : xs.mapM f = .ok (xs.map g) := by
  induction xs with
  | nil => rfl
  | cons x xs ih =>
    rw [List.mapM_cons, h x (by simp), ok_bind, ih fun y hy => h y (by simp [hy])]
    rfl

theorem array_mapM_eq_ok {f : β → Except ε γ} {g : β → γ} {xs : Array β}
    (h : ∀ x ∈ xs, f x = .ok (g x)) : xs.mapM f = .ok (xs.map g) := by
  rw [Array.mapM_eq_mapM_toList, mapM_eq_ok fun x hx => h x (by simpa using hx)]
  simp only [Functor.map, Except.map, ← Array.toList_map]

theorem filterMapM_eq_ok {f : β → Except ε (Option γ)} {g : β → Option γ} {xs : List β}
    (h : ∀ x ∈ xs, f x = .ok (g x)) : xs.filterMapM f = .ok (xs.filterMap g) := by
  induction xs with
  | nil => rfl
  | cons x xs ih =>
    rw [List.filterMapM_cons, h x (by simp), ok_bind, ih fun y hy => h y (by simp [hy])]
    cases hg : g x with
    | none => simp [hg]
    | some y => simp [hg]

theorem findM?_eq_ok {f : β → Except ε Bool} {g : β → Bool} {xs : List β}
    (h : ∀ x ∈ xs, f x = .ok (g x)) : xs.findM? f = .ok (xs.find? g) := by
  induction xs with
  | nil => rfl
  | cons x xs ih =>
    rw [List.findM?, h x (by simp), ok_bind, List.find?_cons]
    cases g x with
    | true => rfl
    | false => exact ih fun y hy => h y (by simp [hy])

theorem allM_eq_ok {f : β → Except ε Bool} {g : β → Bool} {xs : List β}
    (h : ∀ x ∈ xs, f x = .ok (g x)) : xs.allM f = .ok (xs.all g) := by
  induction xs with
  | nil => rfl
  | cons x xs ih =>
    rw [List.allM, h x (by simp), ok_bind, List.all_cons]
    cases g x with
    | true => simpa using ih fun y hy => h y (by simp [hy])
    | false => rfl

theorem allM_congr {f g : β → Except ε Bool} {xs : List β} (h : ∀ x ∈ xs, f x = g x) :
    xs.allM f = xs.allM g := by
  induction xs with
  | nil => rfl
  | cons x xs ih =>
    rw [List.allM, List.allM, h x (by simp), ih fun y hy => h y (by simp [hy])]

/-- What a walk finds that never stops. -/
theorem of_allM_eq_true {f : β → Except ε Bool} {xs : List β} (h : xs.allM f = .ok true) :
    ∀ x ∈ xs, f x = .ok true := by
  induction xs with
  | nil => simp
  | cons x xs ih =>
    obtain ⟨b, hb, h⟩ := bind_eq_ok.mp h
    cases b with
    | false => cases h
    | true => exact List.forall_mem_cons.mpr ⟨hb, ih h⟩

/-- **Every part of a list that was computed** is the answer for its element. -/
theorem forall₂_of_mapM_eq_ok {f : β → Except ε γ} {xs : List β} {ys : List γ}
    (h : xs.mapM f = .ok ys) : List.Forall₂ (fun x y => f x = .ok y) xs ys := by
  induction xs generalizing ys with
  | nil =>
    cases h
    exact .nil
  | cons x xs ih =>
    rw [List.mapM_cons] at h
    obtain ⟨y, hy, h⟩ := bind_eq_ok.mp h
    obtain ⟨ys', hys, h⟩ := bind_eq_ok.mp h
    cases h
    exact .cons hy (ih hys)

/-! ## Arrays -/

theorem lt_size_of_read {xs : Array β} {i : ℕ} {x : β} (d : β) (h : read xs i = .ok x) :
    i < xs.size ∧ xs.getD i d = x := by
  rw [read] at h
  split at h
  · rename_i y hy
    cases h
    obtain ⟨hi, rfl⟩ := Array.getElem?_eq_some_iff.mp hy
    exact ⟨hi, by rw [Array.getD, dif_pos hi]; rfl⟩
  · cases h

theorem read_eq_ok_getD {xs : Array β} {i : ℕ} (d : β) (h : i < xs.size) :
    read xs i = .ok (xs.getD i d) := by
  rw [read_eq_ok h, Array.getD, dif_pos h]
  rfl

theorem write_eq_ok_setIfInBounds {xs : Array β} {i : ℕ} {x : β} (h : i < xs.size) :
    write xs i x = .ok (xs.setIfInBounds i x) := by
  rw [write_eq_ok h, Array.setIfInBounds, dif_pos h]

/-- An array with one entry replaced holds old entries and the new one. -/
theorem mem_of_write_eq_ok {xs ys : Array β} {i : ℕ} {x y : β} (h : write xs i x = .ok ys)
    (hy : y ∈ ys) : y ∈ xs ∨ y = x := by
  rw [write] at h
  split at h
  · cases h
    exact Array.mem_or_eq_of_mem_set hy
  · cases h

/-- Reading what a total function describes. -/
theorem read_of_getElem? {xs : Array β} {i : ℕ} {x : β} (h : xs[i]? = some x) :
    read xs i = .ok x := by
  simp [read, h]

end Checked

end SplitQP
