import SplitQP.Proofs.Sparse.Build
import SplitQP.Proofs.Factor.EliminationTree
import SplitQP.Factor.Permutation
/-!
# Symmetric permutations

`inverse` answers on every rearrangement of `0, …, n - 1`, and with its
inverse (`inverse_ensures`): each step is written at the index it
eliminates (`Placed`), and with no index twice none is left unwritten.
On anything else it does not answer (`isOrder_of_inverse`).
-/

namespace SplitQP

open Checked SplitQP.Dense

/-! ## The inverse -/

/-- **`perm` and `inv` undo each other** on the indices below `n`. -/
structure Inverts (n : ℕ) (perm inv : Array ℕ) : Prop where
  size_perm : perm.size = n
  size_inv : inv.size = n
  perm_lt : ∀ k < n, perm.getD k 0 < n
  inv_lt : ∀ i < n, inv.getD i 0 < n
  inv_perm : ∀ k < n, inv.getD (perm.getD k 0) 0 = k
  perm_inv : ∀ i < n, perm.getD (inv.getD i 0) 0 = i

/-- The rearrangement as a bijection. -/
def Inverts.equiv {n : ℕ} {perm inv : Array ℕ} (h : Inverts n perm inv) : Fin n ≃ Fin n where
  toFun k := ⟨perm.getD k 0, h.perm_lt k k.isLt⟩
  invFun i := ⟨inv.getD i 0, h.inv_lt i i.isLt⟩
  left_inv k := Fin.ext (h.inv_perm k k.isLt)
  right_inv i := Fin.ext (h.perm_inv i i.isLt)

/-- `k` is the step of `i` if `i` is the index of `k`. -/
theorem Inverts.inv_eq_iff {n : ℕ} {perm inv : Array ℕ} (h : Inverts n perm inv) {i k : ℕ}
    (hi : i < n) (hk : k < n) : inv.getD i 0 = k ↔ i = perm.getD k 0 := by
  constructor
  · rintro rfl
    exact (h.perm_inv i hi).symm
  · rintro rfl
    exact h.inv_perm k hk

/-- No index is eliminated twice. -/
theorem Inverts.nodup {n : ℕ} {perm inv : Array ℕ} (h : Inverts n perm inv) :
    perm.toList.Nodup := by
  rw [List.nodup_iff_injective_getElem]
  intro i j hij
  have hi : (i : ℕ) < n := by
    rw [← h.size_perm]
    exact i.isLt
  have hj : (j : ℕ) < n := by
    rw [← h.size_perm]
    exact j.isLt
  have h1 := h.inv_perm i hi
  have h2 := h.inv_perm j hj
  rw [getD_of_lt (x := perm) 0 (by rw [h.size_perm]; exact hi)] at h1
  rw [getD_of_lt (x := perm) 0 (by rw [h.size_perm]; exact hj)] at h2
  refine Fin.ext ?_
  rw [← h1, ← h2]
  exact congrArg (inv.getD · 0) hij

/-- `perm` lists the indices below `n`, each once. -/
def IsOrder (n : ℕ) (perm : Array ℕ) : Prop := perm.toList.Perm (List.range n)

instance (n : ℕ) (perm : Array ℕ) : Decidable (IsOrder n perm) :=
  inferInstanceAs (Decidable (perm.toList.Perm (List.range n)))

/-- As many different indices as there are. -/
theorem isOrder_of_nodup {n : ℕ} {perm : Array ℕ} (hsize : perm.size = n)
    (hnd : perm.toList.Nodup) (hlt : ∀ p ∈ perm.toList, p < n) : IsOrder n perm := by
  have hsub : perm.toList ⊆ List.range n := fun p hp => List.mem_range.mpr (hlt p hp)
  exact (List.subperm_of_subset hnd hsub).perm_of_length_le (by simp [hsize])

theorem Inverts.isOrder {n : ℕ} {perm inv : Array ℕ} (h : Inverts n perm inv) :
    IsOrder n perm := by
  refine isOrder_of_nodup h.size_perm h.nodup fun p hp => ?_
  obtain ⟨k, hk, rfl⟩ := List.getElem_of_mem hp
  have hk' : k < perm.size := by simpa using hk
  have hlt := h.perm_lt k (by rw [← h.size_perm]; exact hk')
  rwa [getD_of_lt 0 hk'] at hlt

namespace Permutation

variable {n : ℕ} {perm : Array ℕ}

/-- Which index got which step, after the steps in `taken`. -/
structure Placed (n : ℕ) (taken : List (ℕ × ℕ)) (steps : Array (Option ℕ)) : Prop where
  size_eq : steps.size = n
  some_iff : ∀ p < n, ∀ k, steps.getD p none = some k ↔ (p, k) ∈ taken

theorem place_ensures {taken : List (ℕ × ℕ)} {steps : Array (Option ℕ)} (h : Placed n taken steps)
    {p k : ℕ} (hp : p < n) (hnew : p ∉ taken.map (·.1)) :
    Ensures (place steps (p, k)) (Placed n (taken ++ [(p, k)])) := by
  have hsize := h.size_eq
  have hnone : steps.getD p none = none := by
    cases hs : steps.getD p none with
    | none => rfl
    | some k' => exact absurd (List.mem_map_of_mem ((h.some_iff p hp k').mp hs)) hnew
  have hget : steps[p]? = some none := by
    rw [getD_of_lt none (by omega)] at hnone
    rw [Array.getElem?_eq_getElem (by omega), hnone]
  rw [place]
  dsimp only
  rw [hget]
  refine .ok ⟨by simpa using hsize, fun i hi k' => ?_⟩
  rw [getD_of_lt none (by simp; omega), Array.getElem_setIfInBounds (by omega)]
  by_cases hip : p = i
  · subst hip
    have hni : ∀ k', (p, k') ∉ taken := fun k' hk => hnew (List.mem_map_of_mem hk)
    simp [hni, eq_comm]
  · rw [if_neg hip, ← getD_of_lt none (by omega), h.some_iff i hi]
    simp [Ne.symm hip]

variable (h : IsOrder n perm)

include h

theorem size_of_order : perm.size = n := by simpa using h.length_eq

theorem mem_order_iff {p : ℕ} : p ∈ perm.toList ↔ p < n := by rw [h.mem_iff, List.mem_range]

theorem getD_order_lt {k : ℕ} (hk : k < n) : perm.getD k 0 < n := by
  have hsize := size_of_order h
  refine (mem_order_iff h).mp ?_
  rw [getD_of_lt 0 (by omega)]
  simp

/-- Every index has a step. -/
theorem exists_step {p : ℕ} (hp : p < n) : ∃ k < n, perm.getD k 0 = p := by
  have hsize := size_of_order h
  obtain ⟨k, hk, hkp⟩ := List.getElem_of_mem ((mem_order_iff h).mpr hp)
  refine ⟨k, by simpa [hsize] using hk, ?_⟩
  rw [getD_of_lt 0 (by simpa using hk)]
  simpa using hkp

/-- **All steps find their places.** -/
theorem placeAll_ensures :
    Ensures (perm.toList.zipIdx.foldlM place (Array.replicate n none))
      (Placed n perm.toList.zipIdx) := by
  have hnd : perm.toList.Nodup := h.nodup_iff.mpr List.nodup_range
  have hfst : perm.toList.zipIdx.map (·.1) = perm.toList := by simp
  refine ensures_foldlM (I := Placed n)
    ⟨by simp, fun p hp k => by rw [getD_of_lt none (by simpa using hp)]; simp⟩ ?_
  rintro taken ⟨p, k⟩ after steps hsplit hsteps
  have hp : p ∈ perm.toList := by
    rw [← hfst, hsplit]
    simp
  refine place_ensures hsteps ((mem_order_iff h).mp hp) ?_
  rw [← hfst, hsplit, List.map_append, List.nodup_append] at hnd
  exact fun hc => hnd.2.2 p hc p (by simp) rfl

/-- Steps in their places invert the order. -/
theorem inverts_of_placed {steps : Array (Option ℕ)} (hsteps : Placed n perm.toList.zipIdx steps) :
    Inverts n perm (steps.filterMap id) := by
  have hsize := size_of_order h
  have hget : ∀ k < n, steps.getD (perm.getD k 0) none = some k := by
    intro k hk
    refine (hsteps.some_iff _ (getD_order_lt h hk) k).mpr ?_
    rw [List.mk_mem_zipIdx_iff_getElem?, getD_of_lt 0 (by omega)]
    simp
  -- no index is left without a step
  have hlist : steps.filterMap id = steps.map (·.getD 0) := by
    rw [← Array.toList_inj, Array.toList_filterMap, Array.toList_map,
      List.filterMap_eq_map_iff_forall_eq_some]
    intro o ho
    obtain ⟨p, hp, rfl⟩ := List.getElem_of_mem ho
    have hpn : p < n := by simpa [hsteps.size_eq] using hp
    obtain ⟨k, hk, rfl⟩ := exists_step h hpn
    have hsome := hget k hk
    rw [getD_of_lt none (by rw [hsteps.size_eq]; exact hpn)] at hsome
    rw [Array.getElem_toList, hsome]
    rfl
  have hinv : ∀ k < n, (steps.filterMap id).getD (perm.getD k 0) 0 = k := by
    intro k hk
    rw [hlist, getD_map none 0 (by rw [hsteps.size_eq]; exact getD_order_lt h hk), hget k hk]
    rfl
  refine ⟨hsize, by rw [hlist]; simpa using hsteps.size_eq, fun k hk => getD_order_lt h hk,
    fun i hi => ?_, hinv, fun i hi => ?_⟩
  · obtain ⟨k, hk, rfl⟩ := exists_step h hi
    rwa [hinv k hk]
  · obtain ⟨k, hk, rfl⟩ := exists_step h hi
    rw [hinv k hk]

/-- **Every rearrangement has an inverse.** -/
theorem inverse_ensures : Ensures (inverse perm n) (Inverts n perm) := by
  rw [inverse, if_pos (size_of_order h)]
  exact (placeAll_ensures h).bind fun steps hsteps => .ok (inverts_of_placed h hsteps)

omit h

/-! ## Nothing else is inverted -/

/-- A step is placed only at an index in range that has none yet. -/
theorem place_eq_ok {taken : List (ℕ × ℕ)} {steps steps' : Array (Option ℕ)}
    (h : Placed n taken steps) {p k : ℕ} (hplace : place steps (p, k) = .ok steps') :
    p < n ∧ p ∉ taken.map (·.1) ∧ Placed n (taken ++ [(p, k)]) steps' := by
  have hsize := h.size_eq
  have hnone : steps[p]? = some none := by
    rw [place] at hplace
    split at hplace
    · assumption
    · cases hplace
  obtain ⟨hp, hget⟩ := Array.getElem?_eq_some_iff.mp hnone
  have hpn : p < n := by omega
  have hnew : p ∉ taken.map (·.1) := by
    intro hmem
    obtain ⟨⟨p', k'⟩, hk', rfl⟩ := List.mem_map.mp hmem
    have hsome := (h.some_iff p' hpn k').mpr hk'
    rw [getD_of_lt none hp, hget] at hsome
    cases hsome
  exact ⟨hpn, hnew, (place_ensures h hpn hnew).of_eq_ok hplace⟩

/-- Where all steps are placed, no index came twice and none was out of range. -/
theorem nodup_of_placeAll {l taken : List (ℕ × ℕ)} {steps steps' : Array (Option ℕ)}
    (h : Placed n taken steps) (hl : l.foldlM place steps = .ok steps') :
    (l.map (·.1)).Nodup ∧ ∀ p ∈ l.map (·.1), p < n ∧ p ∉ taken.map (·.1) := by
  induction l generalizing taken steps with
  | nil => simp
  | cons c l ih =>
    obtain ⟨p, k⟩ := c
    rw [List.foldlM_cons] at hl
    obtain ⟨mid, hplace, hl⟩ := bind_eq_ok.mp hl
    obtain ⟨hpn, hnew, hmid⟩ := place_eq_ok h hplace
    obtain ⟨hnd, hrest⟩ := ih hmid hl
    rw [List.map_cons]
    refine ⟨List.nodup_cons.mpr ⟨fun hmem => (hrest p hmem).2 (by simp), hnd⟩, ?_⟩
    intro p' hp'
    rcases List.mem_cons.mp hp' with rfl | hp'
    · exact ⟨hpn, hnew⟩
    · obtain ⟨hlt, hnot⟩ := hrest p' hp'
      exact ⟨hlt, fun hmem => hnot (by rw [List.map_append]; exact List.mem_append_left _ hmem)⟩

/-- **Only rearrangements have an inverse.** -/
theorem isOrder_of_inverse {inv : Array ℕ} (h : inverse perm n = .ok inv) : IsOrder n perm := by
  have hsize : perm.size = n := by
    by_contra hne
    rw [inverse, if_neg hne] at h
    cases h
  rw [inverse, if_pos hsize] at h
  obtain ⟨steps, hsteps, -⟩ := bind_eq_ok.mp h
  have hstart : Placed n [] (Array.replicate n none) :=
    ⟨by simp, fun p hp k => by rw [getD_of_lt none (by simpa using hp)]; simp⟩
  obtain ⟨hnd, hlt⟩ := nodup_of_placeAll hstart hsteps
  have hfst : perm.toList.zipIdx.map (·.1) = perm.toList := by simp
  rw [hfst] at hnd hlt
  exact isOrder_of_nodup hsize hnd fun p hp => (hlt p hp).1

end Permutation

end SplitQP
