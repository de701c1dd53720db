import SplitQP.Proofs.Admm.Polish
import SplitQP.Sparse.Filling
/-!
# Sparse matrices — marked rows, their ranks and their vectors

A mask marks rows. The marked ones, in their order, are a list in which
each stands at its rank (`getElem?_marked`), so a vector over the selected
rows is read at ranks. `pick` takes such a vector from one over all rows,
and `deal` puts one back. Multiplying by the selected rows is multiplying
by all rows and picking, in the same order of additions
(`foldl_scatter_pick`), whatever the arithmetic. Marks among the marked
rows are marks (`both`), and rank follows rank (`rank_both`).
-/

namespace SplitQP

open Checked SplitQP.Dense

namespace Csc

variable {mask : Array Bool}

/-! ## Ranks -/

theorem rank_eq_count_take (mask : Array Bool) (i : ℕ) :
    rank mask i = (mask.toList.take i).count true := by
  rw [rank, ← Array.count_toList, Array.toList_extract, List.extract_eq_drop_take']
  simp

@[simp] theorem rank_zero (mask : Array Bool) : rank mask 0 = 0 := by simp [rank]

/-- **A row counts for the rows after it** where it is marked. -/
theorem rank_succ (mask : Array Bool) (i : ℕ) :
    rank mask (i + 1) = rank mask i + if mask.getD i false = true then 1 else 0 := by
  rw [rank_eq_count_take, rank_eq_count_take, List.take_add_one, List.count_append,
    Array.getElem?_toList, Array.getD_eq_getD_getElem?]
  rcases mask[i]? with - | ⟨- | -⟩ <;> rfl

theorem rank_size (mask : Array Bool) : rank mask mask.size = mask.count true := by
  rw [rank, Array.extract_size]

/-- The marked rows before `n`, as many as the rank of `n` says. -/
theorem length_filter_range (mask : Array Bool) (n : ℕ) :
    ((List.range n).filter fun i => mask.getD i false).length = rank mask n := by
  induction n with
  | zero => rw [rank_zero]; rfl
  | succ n ih =>
    rw [List.range_succ, List.filter_append, List.length_append, ih, rank_succ]
    split_ifs with hmark
    · rw [List.filter_cons_of_pos (by exact hmark)]
      rfl
    · rw [List.filter_cons_of_neg (by exact hmark)]
      rfl

/-- **There are as many marked rows as marks.** -/
@[simp] theorem length_marked (mask : Array Bool) : (marked mask).length = mask.count true :=
  (length_filter_range mask mask.size).trans (rank_size mask)

theorem mem_marked {i : ℕ} : i ∈ marked mask ↔ i < mask.size ∧ mask.getD i false = true := by
  rw [marked, List.mem_filter, List.mem_range]

theorem nodup_marked (mask : Array Bool) : (marked mask).Nodup := List.nodup_range.filter _

/-- **A marked row stands at its rank.** -/
theorem getElem?_marked {i : ℕ} (hi : i < mask.size) (hmark : mask.getD i false = true) :
    (marked mask)[rank mask i]? = some i := by
  obtain ⟨k, hk⟩ := Nat.exists_eq_add_of_lt hi
  rw [marked, hk, Nat.add_assoc, List.range_add, List.filter_append,
    List.getElem?_append_right (length_filter_range mask i).le, length_filter_range, Nat.sub_self,
    List.range_succ_eq_map, List.map_cons, Nat.add_zero, List.filter_cons_of_pos (by exact hmark)]
  rfl

/-- Each place belongs to a marked row. -/
theorem exists_rank_eq {k : ℕ} (hk : k < mask.count true) :
    ∃ i < mask.size, mask.getD i false = true ∧ rank mask i = k := by
  have hk' : k < (marked mask).length := by rwa [length_marked]
  obtain ⟨hi, hmark⟩ := mem_marked.mp (List.getElem_mem hk')
  obtain ⟨hlt, hrank⟩ := List.getElem?_eq_some_iff.mp (getElem?_marked hi hmark)
  exact ⟨_, hi, hmark, (nodup_marked mask).getElem_inj_iff.mp hrank⟩

variable {α : Type} [Scalar α] {y w : Array α}

/-- Vectors over the marked rows are equal where they are equal at ranks. -/
theorem ext_rank {u v : Array α} (hu : u.size = mask.count true) (hv : v.size = mask.count true)
    (h : ∀ i < mask.size, mask.getD i false = true →
      u.getD (rank mask i) 0 = v.getD (rank mask i) 0) : u = v := by
  refine ext_getD 0 hu hv fun k hk => ?_
  obtain ⟨i, hi, hmark, rfl⟩ := exists_rank_eq hk
  exact h i hi hmark

/-! ## Picking -/

/-- The entries of `y` in the marked rows, in their order. -/
def pick (mask : Array Bool) (y : Array α) : Array α :=
  ((marked mask).map fun i => y.getD i 0).toArray

@[simp] theorem size_pick : (pick mask y).size = mask.count true := by simp [pick]

theorem getD_pick {i : ℕ} (hi : i < mask.size) (hmark : mask.getD i false = true) :
    (pick mask y).getD (rank mask i) 0 = y.getD i 0 := by
  rw [pick, Array.getD_eq_getD_getElem?, List.getElem?_toArray, List.getElem?_map,
    getElem?_marked hi hmark]
  rfl

/-- Picking after changing every entry. -/
theorem pick_map (f : α → α) (hy : y.size = mask.size) :
    pick mask (y.map f) = (pick mask y).map f := by
  refine ext_rank size_pick (by simp) fun i hi hmark => ?_
  rw [getD_pick hi hmark, getD_map 0 0 (by rwa [hy]),
    getD_map 0 0 (by rw [size_pick]; exact rank_lt hi hmark), getD_pick hi hmark]

theorem pick_prescale (b : α) (hy : y.size = mask.size) :
    pick mask (prescale b y) = prescale b (pick mask y) := by
  unfold prescale
  split_ifs
  · exact pick_map _ hy
  · rfl
  · exact pick_map _ hy

/-- Changing a marked entry changes the one at its rank. -/
theorem pick_modify (f : α → α) {i : ℕ} (hi : i < mask.size) (hy : y.size = mask.size)
    (hmark : mask.getD i false = true) :
    pick mask (y.modify i f) = (pick mask y).modify (rank mask i) f := by
  refine ext_rank size_pick (by simp) fun k hk hmark' => ?_
  have hrank := rank_lt hk hmark'
  rw [getD_pick hk hmark', getD_modify f (by rwa [hy]), getD_modify f (by rwa [size_pick]),
    getD_pick hk hmark']
  by_cases hik : i = k
  · rw [if_pos hik, if_pos (by rw [hik])]
  · rw [if_neg hik, if_neg fun h => hik (rank_inj hmark hmark' hi hk h)]

/-- Changing any other entry changes nothing that is picked. -/
theorem pick_modify_of_not (f : α → α) {i : ℕ} (hy : y.size = mask.size)
    (hmark : ¬mask.getD i false = true) : pick mask (y.modify i f) = pick mask y := by
  refine ext_rank size_pick size_pick fun k hk hmark' => ?_
  rw [getD_pick hk hmark', getD_pick hk hmark', getD_modify f (by rwa [hy]),
    if_neg (by rintro rfl; exact hmark hmark')]

/-! ## The selected entries -/

/-- An entry with its row renumbered. -/
def atRank (mask : Array Bool) (e : Entry α) : Entry α := { e with row := rank mask e.row }

omit [Scalar α] in
/-- **Selecting rows keeps the entries of marked rows,** in their order, with the rows
renumbered by rank. -/
theorem entryList_selected (A : Csc α) (mask : Array Bool) : (A.selected mask).entryList =
    (A.entryList.filter fun e => mask.getD e.row false).map (atRank mask) := by
  simp only [entryList, selected, cols_ofColumns, entriesOf, List.filter_flatten, List.map_flatten,
    List.zipIdx_map, List.map_map]
  congr 1
  refine List.map_congr_left fun c _ => ?_
  simp only [Function.comp_apply, Prod.map_fst, Prod.map_snd, id_eq]
  induction c.1 with
  | nil => rfl
  | cons p col ih =>
    by_cases hmark : mask.getD p.1 false = true
    · rw [List.filterMap_cons_some (by rw [selectEntry, if_pos hmark]), List.map_cons, ih,
        List.map_cons, List.filter_cons_of_pos (by exact hmark), List.map_cons]
      rfl
    · rw [List.filterMap_cons_none (by rw [selectEntry, if_neg hmark]), ih, List.map_cons,
        List.filter_cons_of_neg (by exact hmark)]

/-- **Adding up and picking** is adding up what is selected. -/
theorem foldl_scatter_pick (a : α) (x : Array α) {es : List (Entry α)}
    (hes : ∀ e ∈ es, e.row < mask.size) (hy : y.size = mask.size) :
    ((es.filter fun e => mask.getD e.row false).map (atRank mask)).foldl (scatter a x)
      (pick mask y) = pick mask (es.foldl (scatter a x) y) := by
  induction es generalizing y with
  | nil => rfl
  | cons e es ih =>
    obtain ⟨he, hes⟩ := List.forall_mem_cons.mp hes
    have hstep : (scatter a x y e).size = mask.size := by rwa [size_scatter]
    rw [List.foldl_cons, ← ih hes hstep]
    by_cases hmark : mask.getD e.row false = true
    · rw [List.filter_cons_of_pos (by exact hmark), List.map_cons, List.foldl_cons, scatter, scatter,
        pick_modify _ he hy hmark]
      rfl
    · rw [List.filter_cons_of_neg (by exact hmark), scatter, pick_modify_of_not _ hy hmark]

variable {A : Csc α}

/-- **The selected rows times a vector** are picked from all rows times the vector,
whatever the arithmetic. -/
theorem mulVec_pick (hA : A.WellFormed) (hsize : mask.size = A.nrows) (a b : α) {x : Array α}
    (hx : x.size = A.ncols) (hy : y.size = A.nrows) :
    Ensures (A.mulVec a x b y) fun r => r.size = A.nrows ∧
      (A.selected mask).mulVec a x b (pick mask y) = .ok (pick mask r) := by
  have hy' : y.size = mask.size := hy.trans hsize.symm
  refine .of_eq (mulVec_eq hA a b hx hy) ⟨by rw [size_foldl (size_scatter a x), size_prescale, hy],
    ?_⟩
  rw [mulVec_eq (wellFormed_selected hA hsize) a b (by rw [hx, ncols_selected])
      (by rw [size_pick, nrows_selected]),
    entryList_selected, ← pick_prescale b hy',
    foldl_scatter_pick a x (fun e he => by rw [hsize]; exact hA.row_lt_of_mem he)
      (by rw [size_prescale, hy'])]

/-! ## Dealing out -/

omit [Scalar α] in
/-- What is written at other places is left alone. -/
theorem getElem?_foldl_set_of_not_mem {is : List ℕ} {vs : List α} {i : ℕ} (hi : i ∉ is) :
    ∀ y : Array α, ((is.zip vs).foldl (fun y p => y.setIfInBounds p.1 p.2) y)[i]? = y[i]? := by
  induction is generalizing vs with
  | nil => exact fun y => rfl
  | cons j is ih =>
    obtain ⟨hj, his⟩ := not_or.mp (mt List.mem_cons.mpr hi)
    cases vs with
    | nil => exact fun y => rfl
    | cons v vs =>
      intro y
      rw [List.zip_cons_cons, List.foldl_cons, ih his, Array.getElem?_setIfInBounds_ne (Ne.symm hj)]

omit [Scalar α] in
theorem size_foldl_set (ps : List (ℕ × α)) (y : Array α) :
    (ps.foldl (fun y p => y.setIfInBounds p.1 p.2) y).size = y.size :=
  size_foldl (fun _ _ => Array.size_setIfInBounds) ps y

omit [Scalar α] in
/-- **Writing at different places in turn** leaves at each what was written there. -/
theorem getElem?_foldl_set {is : List ℕ} {vs : List α} (his : is.Nodup) {k i : ℕ} {v : α}
    (hi : is[k]? = some i) (hv : vs[k]? = some v) : ∀ y : Array α, i < y.size →
      ((is.zip vs).foldl (fun y p => y.setIfInBounds p.1 p.2) y)[i]? = some v := by
  induction is generalizing vs k with
  | nil => cases hi
  | cons j is ih =>
    obtain ⟨hj, his⟩ := List.nodup_cons.mp his
    cases vs with
    | nil => cases hv
    | cons v' vs =>
      intro y hy
      rw [List.zip_cons_cons, List.foldl_cons]
      cases k with
      | zero =>
        obtain rfl := Option.some.inj hi
        obtain rfl := Option.some.inj hv
        rw [getElem?_foldl_set_of_not_mem hj, Array.getElem?_setIfInBounds_self_of_lt hy]
      | succ k => exact ih his hi hv _ (by simpa using hy)

/-- **Dealing out gives each marked row the entry at its rank.** -/
theorem deal_eq_spread (hw : w.size = mask.count true) : deal mask w = Polish.spread mask w := by
  refine ext_getD (n := mask.size) 0 ?_ Polish.size_spread fun i hi => ?_
  · rw [deal, size_foldl_set, size_constant]
  · rw [Polish.getD_spread hi, deal]
    by_cases hmark : mask.getD i false = true
    · have hrank : rank mask i < w.size := by
        rw [hw]
        exact rank_lt hi hmark
      have hentry : w.toList[rank mask i]? = some w[rank mask i] := by
        rw [Array.getElem?_toList, Array.getElem?_eq_getElem hrank]
      have hset := getElem?_foldl_set (nodup_marked mask) (getElem?_marked hi hmark) hentry
        (constant mask.size 0) (by simpa using hi)
      rw [if_pos hmark, Array.getD_eq_getD_getElem?, hset, getD_of_lt 0 hrank, Option.getD_some]
    · have hset := @getElem?_foldl_set_of_not_mem _ (marked mask) w.toList i
        (fun h => hmark (mem_marked.mp h).2) (constant mask.size 0)
      rw [if_neg hmark, Array.getD_eq_getD_getElem?, hset, ← Array.getD_eq_getD_getElem?,
        getD_constant hi]

/-- Picking undoes dealing out. -/
theorem pick_deal (hw : w.size = mask.count true) : pick mask (deal mask w) = w := by
  refine ext_rank size_pick hw fun i hi hmark => ?_
  rw [getD_pick hi hmark, deal_eq_spread hw, Polish.getD_spread hi, if_pos hmark]

/-- **The transpose of the selected rows times a vector** is that of all rows times the
vector dealt out, in exact arithmetic. -/
theorem mulTransposeVec_deal {K : Type} [ExactField K] {A : Csc K} {w y : Array K}
    (hA : A.WellFormed) (hsize : mask.size = A.nrows) (a b : K) (hw : w.size = mask.count true)
    (hy : y.size = A.ncols) :
    Ensures (A.mulTransposeVec a (deal mask w) b y) fun r =>
      r.size = A.ncols ∧ (A.selected mask).mulTransposeVec a w b y = .ok r := by
  have hdeal : (deal mask w).size = A.nrows := by
    rw [deal_eq_spread hw, Polish.size_spread, hsize]
  refine (vec_mulTransposeVec hA rfl rfl a b hdeal hy).mono fun r ⟨hr, hvec⟩ => ⟨hr, ?_⟩
  obtain ⟨r', hr', hsize', hvec'⟩ := vec_mulTransposeVec (wellFormed_selected hA hsize)
    nrows_selected ncols_selected a b hw hy
  rw [mulTransposeVec_selected hA rfl rfl hsize (w := deal mask w)
    fun i hi => by rw [deal_eq_spread hw, Polish.getD_spread hi], ← hvec] at hvec'
  rw [hr', eq_of_vec hsize' hr hvec']

/-! ## Marks among the marked rows -/

/-- The rows that `mask` marks and `mask'` marks among them. -/
def both (mask mask' : Array Bool) : Array Bool :=
  mask.mapIdx fun i isSelected => isSelected && mask'.getD (rank mask i) false

@[simp] theorem size_both (mask mask' : Array Bool) : (both mask mask').size = mask.size := by
  simp [both]

theorem getD_both (mask mask' : Array Bool) (i : ℕ) : (both mask mask').getD i false =
    (mask.getD i false && mask'.getD (rank mask i) false) := by
  rcases Nat.lt_or_ge i mask.size with hi | hi
  · rw [getD_of_lt false (by simpa using hi), getD_of_lt false hi]
    exact Array.getElem_mapIdx _
  · rw [Array.getD, dif_neg (by simpa using hi), Array.getD, dif_neg (by omega)]
    rfl

/-- **Rank follows rank.** -/
theorem rank_both (mask mask' : Array Bool) (i : ℕ) :
    rank (both mask mask') i = rank mask' (rank mask i) := by
  induction i with
  | zero => simp
  | succ i ih =>
    rw [rank_succ, rank_succ mask, ih, getD_both]
    cases mask.getD i false with
    | false => simp
    | true => simp [rank_succ]

theorem count_both {mask' : Array Bool} (hmask' : mask'.size = mask.count true) :
    (both mask mask').count true = mask'.count true := by
  rw [← rank_size, size_both, rank_both, rank_size, ← hmask', rank_size]

omit [Scalar α] in
/-- **Selecting twice is selecting once.** -/
theorem selected_selected (A : Csc α) {mask' : Array Bool} (hmask' : mask'.size = mask.count true) :
    (A.selected mask).selected mask' = A.selected (both mask mask') := by
  rw [selected, selected, selected, count_both hmask', cols_ofColumns, List.map_map]
  congr 1
  refine List.map_congr_left fun col _ => ?_
  rw [Function.comp_apply, List.filterMap_filterMap]
  refine List.filterMap_congr fun p _ => ?_
  rw [selectEntry, selectEntry, getD_both, rank_both]
  cases mask.getD p.1 false with
  | false => rfl
  | true => rfl

end Csc

end SplitQP
