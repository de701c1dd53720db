import SplitQP.Proofs.Factor.Permutation
import SplitQP.Proofs.Sparse.SamePattern
import SplitQP.Factor.Ldl
/-!
# The permuted upper triangle

`permuteUpper` answers `permuted`: each entry `(i, j)` moves to the steps
of `i` and `j`, the earlier one as its row. So the symmetric completion
is rearranged (`symCoeff_permuted`). Where an entry goes depends on the
pattern alone, and `landings` finds it there: no value is lost
(`eq_of_permuted`), and writing an entry and moving it commute
(`permuted_setValue`).
-/

namespace SplitQP

open Checked SplitQP.Dense

namespace Csc

variable {α : Type} {inv : Array ℕ}

/-- The column an entry moves to. -/
def newCol (inv : Array ℕ) (e : Entry α) : ℕ := max (inv.getD e.row 0) (inv.getD e.col 0)

/-- The row an entry moves to. -/
def newRow (inv : Array ℕ) (e : Entry α) : ℕ := min (inv.getD e.row 0) (inv.getD e.col 0)

/-- **The upper triangle of the permuted matrix.** -/
def permuted (A : Csc α) (inv : Array ℕ) : Csc α :=
  ofColumns A.ncols (distribute A.ncols
    (A.entryList.map fun e => (newCol inv e, (newRow inv e, e.value))))

/-- Which stored entry stands at each position of the permuted matrix. -/
def origins (A : Csc α) (inv : Array ℕ) : List ℕ :=
  (distribute A.ncols (A.entryList.zipIdx.map fun e => (newCol inv e.1, e.2))).flatten

section Square

variable {A : Csc α} {n : ℕ} {perm : Array ℕ} (hA : A.WellFormed) (hr : A.nrows = n)
  (hc : A.ncols = n) (hi : Inverts n perm inv)

include hA hr hc hi

theorem newCol_lt {e : Entry α} (he : e ∈ A.entryList) : newCol inv e < n := by
  have h1 := hi.inv_lt e.row (hr ▸ hA.row_lt_of_mem he)
  have h2 := hi.inv_lt e.col (hc ▸ col_lt_of_mem he)
  rw [newCol]
  omega

/-- **Permuting answers.** -/
theorem permuteUpper_eq_ok : A.permuteUpper inv =
    .ok (A.permuted inv, landings A.rowIndex.size (A.origins inv)) := by
  have hmoved : A.entryList.zipIdx.mapM (relocate inv) = .ok (A.entryList.zipIdx.map fun e =>
      (newCol inv e.1, newRow inv e.1, e.1.value, e.2)) := by
    refine mapM_eq_ok fun e he => ?_
    have hmem : e.1 ∈ A.entryList := by
      rw [← List.zipIdx_map_fst 0 A.entryList]
      exact List.mem_map_of_mem he
    rw [relocate, read_eq_ok_getD 0 (by rw [hi.size_inv, ← hr]; exact hA.row_lt_of_mem hmem),
      ok_bind, read_eq_ok_getD 0 (by rw [hi.size_inv, ← hc]; exact col_lt_of_mem hmem)]
    rfl
  rw [permuteUpper, hA.nnz_eq, ok_bind, hA.entries_eq, ok_bind, hmoved, ok_bind,
    require_eq_ok (by simp [hA.length_entryList]), ok_bind, require_eq_ok, ok_bind]
  · simp only [map_distribute, List.map_flatten, List.map_map, Function.comp_def, permuted, origins]
    congr 3
    rw [← List.zipIdx_map_fst 0 A.entryList, List.map_map]
    simp [Function.comp_def]
  · simp only [List.all_eq_true, List.mem_map, decide_eq_true_eq]
    rintro _ ⟨e, he, rfl⟩
    have hmem : e.1 ∈ A.entryList := by
      rw [← List.zipIdx_map_fst 0 A.entryList]
      exact List.mem_map_of_mem he
    rw [hc]
    exact newCol_lt hA hr hc hi hmem

omit hA hr hi in
@[simp] theorem ncols_permuted : (A.permuted inv).ncols = n := by simp [permuted, hc]

omit hA hr hi in
@[simp] theorem nrows_permuted : (A.permuted inv).nrows = n := hc

omit hA hr hi in
/-- What stands in a column of the permuted matrix. -/
theorem mem_cols_permuted {j : ℕ} {p : ℕ × α} (hj : j < n)
    (hp : p ∈ (A.permuted inv).cols.getD j []) :
    ∃ e ∈ A.entryList, newCol inv e = j ∧ newRow inv e = p.1 ∧ e.value = p.2 := by
  rw [permuted, cols_ofColumns, hc, getD_distribute hj, mem_bin, List.mem_map] at hp
  obtain ⟨e, he, heq⟩ := hp
  rw [Prod.ext_iff, Prod.ext_iff] at heq
  exact ⟨e, he, heq.1, heq.2.1, heq.2.2⟩

theorem wellFormed_permuted : (A.permuted inv).WellFormed := by
  refine wellFormed_ofColumns fun col hcol p hp => ?_
  obtain ⟨j, hj, rfl⟩ := List.getElem_of_mem hcol
  rw [length_distribute, hc] at hj
  have hmem : p ∈ (A.permuted inv).cols.getD j [] := by
    rwa [permuted, cols_ofColumns, List.getD_eq_getElem]
  obtain ⟨e, he, -, hrow, -⟩ := mem_cols_permuted hc hj hmem
  have hlt := newCol_lt hA hr hc hi he
  rw [newCol] at hlt
  rw [← hrow, newRow, hc]
  omega

omit hA hr hi in
theorem storedRows_permuted_le : ∀ k, ∀ i ∈ TreeState.storedRows (A.permuted inv) k, i ≤ k := by
  intro k i hmem
  rw [TreeState.storedRows, List.mem_map] at hmem
  obtain ⟨p, hp, rfl⟩ := hmem
  rcases Nat.lt_or_ge k n with hk | hk
  · obtain ⟨e, -, hcol, hrow, -⟩ := mem_cols_permuted hc hk hp
    rw [← hcol, ← hrow, newRow, newCol]
    omega
  · rw [List.getD_eq_default _ _ (by rw [length_cols, ncols_permuted hc]; exact hk)] at hp
    cases hp

end Square

/-- **The permuted matrix** has at `(a, b)` the number at `(perm[a], perm[b])`. -/
theorem symCoeff_permuted {K : Type} [ExactField K] {A : Csc K} {n : ℕ} {perm : Array ℕ}
    (hA : A.WellFormed) (hr : A.nrows = n) (hc : A.ncols = n) (hi : Inverts n perm inv) {a b : ℕ}
    (ha : a < n) (hb : b < n) :
    (A.permuted inv).symCoeff a b = A.symCoeff (perm.getD a 0) (perm.getD b 0) := by
  rw [symCoeff, entryList, permuted, cols_ofColumns, sum_entriesOf_distribute, List.map_map,
    symCoeff]
  · congr 1
    refine List.map_congr_left fun e he => ?_
    have hrow := hr ▸ hA.row_lt_of_mem he
    have hcol := hc ▸ col_lt_of_mem he
    simp only [Function.comp_apply, newRow, newCol, ← hi.inv_eq_iff hrow ha,
      ← hi.inv_eq_iff hrow hb, ← hi.inv_eq_iff hcol ha, ← hi.inv_eq_iff hcol hb]
    congr 1
    rw [eq_iff_iff]
    omega
  · simp only [List.mem_map]
    rintro _ ⟨e, he, rfl⟩
    rw [hc]
    exact newCol_lt hA hr hc hi he

/-! ## Writing an entry -/

/-- The stored value at position `p`, replaced. -/
def setValue (A : Csc α) (p : ℕ) (v : α) : Csc α := { A with value := A.value.setIfInBounds p v }

theorem samePattern_setValue (A : Csc α) (p : ℕ) (v : α) : SamePattern A (A.setValue p v) :=
  ⟨rfl, rfl, rfl, rfl, by simp [setValue]⟩

/-- Replacing the number of the last entry of a column. -/
theorem setValue_last (n r : ℕ) (before after : List (List (ℕ × α)))
    (col : List (ℕ × α)) (v w : α) :
    (ofColumns n (before ++ (col ++ [(r, v)]) :: after)).setValue
        ((ofColumns n (before ++ (col ++ [(r, v)]) :: after)).start (before.length + 1) - 1) w =
      ofColumns n (before ++ (col ++ [(r, w)]) :: after) := by
  have hpos : (ofColumns n (before ++ (col ++ [(r, v)]) :: after)).start (before.length + 1) - 1 =
      ((before.flatten ++ col).map (·.2)).length := by
    rw [start_ofColumns (by simp), List.map_append, List.map_cons, List.take_append,
      List.length_map, Nat.add_sub_cancel_left, List.take_of_length_le (by simp), List.take_one,
      List.length_map, @List.length_append _ before.flatten, List.length_flatten]
    simp [← Nat.add_assoc]
  have hvalue : ((ofColumns n (before ++ (col ++ [(r, v)]) :: after)).setValue
      ((ofColumns n (before ++ (col ++ [(r, v)]) :: after)).start (before.length + 1) - 1)
      w).value =
        (ofColumns n (before ++ (col ++ [(r, w)]) :: after)).value := by
    rw [hpos, setValue]
    apply Array.toList_inj.mp
    have hflat : ∀ u : α, (before ++ (col ++ [(r, u)]) :: after).flatten.map (·.2) =
        (before.flatten ++ col).map (·.2) ++ u :: after.flatten.map (·.2) := by
      intro u
      simp
    simp only [ofColumns, Array.toList_setIfInBounds, hflat]
    rw [List.set_append_right _ _ le_rfl, Nat.sub_self, List.set_cons_zero]
  have hsame : SamePattern (ofColumns n (before ++ (col ++ [(r, v)]) :: after))
      (ofColumns n (before ++ (col ++ [(r, w)]) :: after)) := samePattern_ofColumns (by simp)
  rw [← hsame.eq_of_value, ← hvalue]
  rfl

section SetValue

variable {A B : Csc α} {n : ℕ} {perm : Array ℕ}

/-- Items read off the places of the entries are the same for one pattern. -/
theorem SamePattern.map_eq {γ : Type} (h : SamePattern A B) (hA : A.WellFormed) (f : ℕ × ℕ → γ) :
    B.entryList.map (fun e => f (e.row, e.col)) = A.entryList.map fun e => f (e.row, e.col) := by
  have := congrArg (List.map f) (h.map_place hA)
  simpa [Function.comp_def] using this

theorem SamePattern.origins_eq (h : SamePattern A B) (hA : A.WellFormed) :
    B.origins inv = A.origins inv := by
  have hcols := h.map_eq hA fun rc => max (inv.getD rc.1 0) (inv.getD rc.2 0)
  have hitems : ∀ C : Csc α, (C.entryList.zipIdx.map fun e => (newCol inv e.1, e.2)) =
      (C.entryList.map fun e => max (inv.getD e.row 0) (inv.getD e.col 0)).zipIdx := by
    intro C
    rw [List.zipIdx_map]
    rfl
  rw [origins, origins, hitems, hitems, hcols, h.ncols_eq]

/-- **The pattern of the permuted matrix** depends on the pattern alone. -/
theorem SamePattern.permuted (h : SamePattern A B) (hA : A.WellFormed) :
    SamePattern (A.permuted inv) (B.permuted inv) := by
  have hcols : (B.permuted inv).cols.map (List.map (·.1)) =
      (A.permuted inv).cols.map (List.map (·.1)) := by
    have := h.map_eq hA fun rc => (max (inv.getD rc.1 0) (inv.getD rc.2 0),
      min (inv.getD rc.1 0) (inv.getD rc.2 0))
    simp only [Csc.permuted, cols_ofColumns, map_distribute, List.map_map, Function.comp_def,
      h.ncols_eq]
    exact congrArg _ this
  simp only [Csc.permuted, cols_ofColumns] at hcols ⊢
  have hsame := samePattern_ofColumns (n := A.ncols) hcols
  rwa [← h.ncols_eq] at hsame ⊢

/-- The values of the permuted matrix, by where they come from. -/
theorem value_permuted (hA : A.WellFormed) (d : α) :
    (A.permuted inv).value.toList = (A.origins inv).map fun p => A.value.getD p d := by
  have hitems : (A.entryList.map fun e => (newCol inv e, e.value)) =
      A.entryList.zipIdx.map fun e => (newCol inv e.1, A.value.getD e.2 d) := by
    apply List.ext_getElem
    · simp
    · intro t h1 h2
      have hlen : t < A.entryList.length := by simpa using h1
      simp only [List.getElem_map, List.getElem_zipIdx, Nat.zero_add, hA.getD_value d hlen]
  simp only [permuted, ofColumns, origins, List.map_flatten, map_distribute, List.map_map,
    Function.comp_def]
  rw [hitems]

theorem landings_append (count : ℕ) (from_ : List ℕ) (p : ℕ) :
    landings count (from_ ++ [p]) = (landings count from_).setIfInBounds p from_.length := by
  simp [landings, List.zipIdx_append, List.foldl_append]

theorem size_landings (count : ℕ) (from_ : List ℕ) : (landings count from_).size = count := by
  induction from_ using List.reverseRecOn with
  | nil => simp [landings]
  | append_singleton from_ p ih => rw [landings_append, Array.size_setIfInBounds, ih]

/-- **A landing is found** where its origin stands. -/
theorem getD_landings {count : ℕ} {from_ : List ℕ} (hnd : from_.Nodup)
    (hlt : ∀ p ∈ from_, p < count) {t p : ℕ} (ht : from_[t]? = some p) :
    (landings count from_).getD p 0 = t := by
  induction from_ using List.reverseRecOn with
  | nil => cases ht
  | append_singleton from_ q ih =>
    have hp : p < count := hlt p (List.mem_of_getElem? ht)
    rw [landings_append, getD_of_lt 0 (by simpa [size_landings] using hp),
      Array.getElem_setIfInBounds (by simpa [size_landings] using hp)]
    rw [List.nodup_append] at hnd
    rcases Nat.lt_or_ge t from_.length with htlt | htge
    · rw [List.getElem?_append_left htlt] at ht
      have hpq : q ≠ p := by
        rintro rfl
        exact hnd.2.2 q (List.mem_of_getElem? ht) q (by simp) rfl
      rw [if_neg hpq, ← getD_of_lt 0 (by simpa [size_landings] using hp)]
      exact ih hnd.1 (fun p hp => hlt p (by simp [hp])) ht
    · rw [List.getElem?_append_right htge, List.getElem?_singleton] at ht
      split_ifs at ht with hzero
      obtain rfl := Option.some_inj.mp ht
      rw [if_pos rfl]
      omega

section Landing

variable (hA : A.WellFormed) (hr : A.nrows = n) (hc : A.ncols = n) (hi : Inverts n perm inv)

include hA hr hc hi

theorem origins_perm : (A.origins inv).Perm (List.range A.rowIndex.size) := by
  have hmem : ∀ x ∈ A.entryList.zipIdx.map (fun e => (newCol inv e.1, e.2)), x.1 < A.ncols := by
    simp only [List.mem_map]
    rintro _ ⟨e, he, rfl⟩
    have hmem : e.1 ∈ A.entryList := by
      rw [← List.zipIdx_map_fst 0 A.entryList]
      exact List.mem_map_of_mem he
    rw [hc]
    exact newCol_lt hA hr hc hi hmem
  have hperm := flatten_distribute_perm hmem
  rw [List.map_map] at hperm
  rw [← hA.length_entryList, List.range_eq_range']
  simpa [origins, Function.comp_def, List.zipIdx_map_snd] using hperm

/-- The position an entry lands at. -/
theorem landing_spec {p : ℕ} (hp : p < A.rowIndex.size) :
    (A.origins inv)[(landings A.rowIndex.size (A.origins inv)).getD p 0]? = some p := by
  have hperm := origins_perm hA hr hc hi
  obtain ⟨t, ht⟩ := List.getElem?_of_mem (hperm.mem_iff.mpr (List.mem_range.mpr hp))
  rwa [getD_landings (hperm.nodup_iff.mpr List.nodup_range)
    (fun q hq => List.mem_range.mp (hperm.mem_iff.mp hq)) ht]

theorem size_value_permuted : (A.permuted inv).value.size = A.rowIndex.size := by
  have hmem : ∀ x ∈ A.entryList.map (fun e => (newCol inv e, (newRow inv e, e.value))),
      x.1 < A.ncols := by
    simp only [List.mem_map]
    rintro _ ⟨e, he, rfl⟩
    rw [hc]
    exact newCol_lt hA hr hc hi he
  have hlen := (flatten_distribute_perm hmem).length_eq
  rw [List.length_map, List.length_map, hA.length_entryList] at hlen
  rw [← hlen, permuted, ofColumns, List.size_toArray, List.length_map]

theorem landing_lt {p : ℕ} (hp : p < A.rowIndex.size) :
    (landings A.rowIndex.size (A.origins inv)).getD p 0 < (A.permuted inv).value.size := by
  have hlt := (List.getElem?_eq_some_iff.mp (landing_spec hA hr hc hi hp)).1
  rw [(origins_perm hA hr hc hi).length_eq, List.length_range] at hlt
  rwa [size_value_permuted hA hr hc hi]

/-- **Rearranging loses no entry:** a matrix of one pattern is found again from its
values. -/
theorem eq_of_permuted {B : Csc α} (hsame : SamePattern A B)
    (h : (B.permuted inv).value = (A.permuted inv).value) : B = A := by
  have hvalue : B.value = A.value := by
    refine Array.ext hsame.size_value fun p hpB hpA => ?_
    have hland := landing_spec hA hr hc hi (hA.size_value ▸ hpA)
    generalize (landings A.rowIndex.size (A.origins inv)).getD p 0 = t at hland
    have hread := congrArg (·.toList[t]?) h
    simp only [value_permuted (hsame.wellFormed hA) A.value[p], value_permuted hA A.value[p],
      hsame.origins_eq hA, List.getElem?_map, hland, Option.map_some, Option.some_inj] at hread
    rwa [getD_of_lt _ hpB, getD_of_lt _ hpA] at hread
  rw [← hsame.eq_of_value, hvalue]

/-- **Writing an entry and moving it commute.** -/
theorem permuted_setValue {p : ℕ} (hp : p < A.rowIndex.size) (v : α) :
    (A.setValue p v).permuted inv =
      (A.permuted inv).setValue ((landings A.rowIndex.size (A.origins inv)).getD p 0) v := by
  have hsame := samePattern_setValue A p v
  have hperm := origins_perm hA hr hc hi
  have hland := landing_spec hA hr hc hi hp
  have hp' : p < A.value.size := by rwa [hA.size_value]
  have hvalue : ((A.setValue p v).permuted inv).value = ((A.permuted inv).setValue
      ((landings A.rowIndex.size (A.origins inv)).getD p 0) v).value := by
    rw [← Array.toList_inj, value_permuted (hsame.wellFormed hA) v, hsame.origins_eq hA,
      setValue, setValue, Array.toList_setIfInBounds, value_permuted hA v]
    generalize (landings A.rowIndex.size (A.origins inv)).getD p 0 = t at hland
    apply List.ext_getElem
    · simp
    · intro s h1 h2
      have hs : s < (A.origins inv).length := by simpa using h1
      obtain ⟨ht, hpt⟩ := List.getElem?_eq_some_iff.mp hland
      have hq : (A.origins inv)[s] < A.value.size := by
        rw [hA.size_value]
        exact List.mem_range.mp (hperm.mem_iff.mp (List.getElem_mem hs))
      rw [List.getElem_map, List.getElem_set, List.getElem_map,
        getD_of_lt v (by simpa using hq), getD_of_lt v hq, Array.getElem_setIfInBounds hq]
      have hiff : p = (A.origins inv)[s] ↔ t = s := by
        rw [← hpt]
        exact (hperm.nodup_iff.mpr List.nodup_range).getElem_inj_iff
      simp only [hiff]
  obtain ⟨h1, h2, h3, h4, -⟩ : SamePattern (A.permuted inv) ((A.setValue p v).permuted inv) :=
    hsame.permuted hA
  cases hB : (A.setValue p v).permuted inv
  rw [hB] at h1 h2 h3 h4 hvalue
  simp only [setValue] at h1 h2 h3 h4 hvalue ⊢
  rw [Csc.mk.injEq]
  exact ⟨h1, h2, h3, h4, hvalue⟩

end Landing

end SetValue

end Csc

end SplitQP
