import SplitQP.Proofs.Sparse.AsMatrix
/-!
# Sparse matrices — building from numbered items

Distributing items over bins gives each bin its own items in their order
(`distribute_eq`). So nothing is lost: a sum over the entries of a matrix
built from bins is a sum over the items (`sum_entriesOf_distribute`).
-/

namespace SplitQP

namespace Csc

variable {β : Type}

/-- What `distribute` puts into bin `j`. -/
def bin (items : List (ℕ × β)) (j : ℕ) : List β := (items.filter (·.1 = j)).map (·.2)

theorem mem_bin {items : List (ℕ × β)} {j : ℕ} {x : β} : x ∈ bin items j ↔ (j, x) ∈ items := by
  simp only [bin, List.mem_map, List.mem_filter, decide_eq_true_eq, Prod.exists]
  constructor
  · rintro ⟨i, y, ⟨hmem, rfl⟩, rfl⟩
    exact hmem
  · intro h
    exact ⟨j, x, ⟨h, rfl⟩, rfl⟩

theorem bin_append (items : List (ℕ × β)) (x : ℕ × β) (j : ℕ) :
    bin (items ++ [x]) j = if x.1 = j then bin items j ++ [x.2] else bin items j := by
  rw [bin, List.filter_append, List.map_append]
  split_ifs with h
  · simp [bin, h]
  · simp [bin, h]

theorem bin_append_append (items items' : List (ℕ × β)) (j : ℕ) :
    bin (items ++ items') j = bin items j ++ bin items' j := by
  rw [bin, List.filter_append, List.map_append, bin, bin]

/-- **Each bin gets its own items,** in their order. -/
theorem distribute_eq (n : ℕ) (items : List (ℕ × β)) :
    distribute n items = (List.range n).map (bin items) := by
  suffices h : items.foldl (fun bins p => bins.modify p.1 (·.push p.2))
      (Array.replicate n (#[] : Array β)) =
        ((List.range n).map fun j => (bin items j).toArray).toArray by
    refine (congrArg (fun bins => bins.toList.map Array.toList) h).trans ?_
    simp
  induction items using List.reverseRecOn with
  | nil =>
    apply Array.ext
    · simp
    · intro j h1 h2
      simp [bin]
  | append_singleton items x ih =>
    rw [List.foldl_append, ih]
    apply Array.ext
    · simp
    · intro j h1 h2
      simp only [List.foldl_cons, List.foldl_nil, List.getElem_toArray, List.getElem_map,
        List.getElem_range, Array.getElem_modify, bin_append]
      split_ifs <;> simp

@[simp] theorem length_distribute (n : ℕ) (items : List (ℕ × β)) :
    (distribute n items).length = n := by simp [distribute_eq]

theorem getD_distribute {n j : ℕ} (hj : j < n) (items : List (ℕ × β)) :
    (distribute n items).getD j [] = bin items j := by
  rw [distribute_eq, List.getD_eq_getElem _ _ (by simpa using hj)]
  simp

/-- Changing the items and changing the bins is the same. -/
theorem map_distribute {γ : Type} (n : ℕ) (items : List (ℕ × β)) (g : β → γ) :
    (distribute n items).map (List.map g) = distribute n (items.map fun x => (x.1, g x.2)) := by
  rw [distribute_eq, distribute_eq, List.map_map]
  refine List.map_congr_left fun j _ => ?_
  simp only [Function.comp_apply, bin, List.filter_map, List.map_map]
  rfl

/-- A sum over one bin. -/
theorem sum_map_bin {M : Type} [AddCommMonoid M] (items : List (ℕ × β)) (j : ℕ) (f : β → M) :
    ((bin items j).map f).sum = (items.map fun x => if x.1 = j then f x.2 else 0).sum := by
  induction items using List.reverseRecOn with
  | nil => rfl
  | append_singleton items x ih =>
    rw [bin_append, List.map_append, List.sum_append, ← ih]
    split_ifs <;> simp [*]

/-- **Every item is in its bin.** A sum over all bins is a sum over the items. -/
theorem sum_bin {M : Type} [AddCommMonoid M] {n : ℕ} {items : List (ℕ × β)}
    (h : ∀ x ∈ items, x.1 < n) (f : ℕ → β → M) :
    ∑ j ∈ Finset.range n, ((bin items j).map (f j)).sum = (items.map fun x => f x.1 x.2).sum := by
  induction items using List.reverseRecOn with
  | nil => simp [bin]
  | append_singleton items x ih =>
    rw [List.map_append, List.sum_append, ← ih fun y hy => h y (by simp [hy])]
    have hx : x.1 ∈ Finset.range n := Finset.mem_range.mpr (h x (by simp))
    have hbin : ∀ j, ((bin (items ++ [x]) j).map (f j)).sum =
        ((bin items j).map (f j)).sum + if x.1 = j then f j x.2 else 0 := by
      intro j
      rw [bin_append]
      split_ifs <;> simp
    simp only [hbin, Finset.sum_add_distrib]
    rw [Finset.sum_ite_eq, if_pos hx]
    simp

/-- **No item is lost,** and none is doubled. -/
theorem flatten_distribute_perm {n : ℕ} {items : List (ℕ × β)}
    (h : ∀ x ∈ items, x.1 < n) : (distribute n items).flatten.Perm (items.map (·.2)) := by
  classical
  have hcount : ∀ (l : List β) a, l.count a = (l.map fun y => if y = a then 1 else 0).sum := by
    intro l a
    induction l with
    | nil => rfl
    | cons y l ih =>
      rw [List.count_cons, ih, List.map_cons, List.sum_cons, Nat.add_comm]
      simp
  rw [List.perm_iff_count]
  intro a
  have hsum := sum_bin h fun _ y => if y = a then 1 else 0
  simp only [← hcount] at hsum
  have hitems : (items.map (·.2)).count a = (items.map fun x => if x.2 = a then 1 else 0).sum := by
    rw [hcount, List.map_map]
    rfl
  rw [List.count_flatten, distribute_eq, List.map_map, hitems, ← hsum]
  rfl

/-- **A matrix built from bins** has the items as its entries. -/
theorem sum_entriesOf_distribute {M : Type} [AddCommMonoid M] {α : Type} {n : ℕ}
    {items : List (ℕ × ℕ × α)} (h : ∀ x ∈ items, x.1 < n) (f : Entry α → M) :
    ((entriesOf (distribute n items)).map f).sum =
      (items.map fun x => f ⟨x.2.1, x.1, x.2.2⟩).sum := by
  rw [sum_entriesOf, length_distribute, ← sum_bin h fun j p => f ⟨p.1, j, p.2⟩]
  refine Finset.sum_congr rfl fun j hj => ?_
  rw [getD_distribute (Finset.mem_range.mp hj)]

end Csc

end SplitQP
