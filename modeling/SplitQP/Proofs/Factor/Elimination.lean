import Mathlib.Combinatorics.SimpleGraph.Basic
import Mathlib.Data.Set.Card
import SplitQP.Proofs.Factor.Ldl
/-!
# The elimination game

The columns of an upper triangle are the vertices of a graph, and an entry
off the diagonal joins its row and its column. Eliminating a vertex joins
all its later neighbours pairwise. Played on the columns in order, this
game leaves the filled graph (`filledGraph`).

`eliminationTree` never forms that graph. It climbs paths that it builds
as it goes, and marks the last row that met each column. Its answer is
nevertheless read off the filled graph: the parent of a column is its
first later neighbour, and the count is the number of them
(`eliminationTree_of_checkFormat`). The bridge is the filled pattern
`Fill`, which is adjacency in the filled graph (`filledGraph_adj_iff`).
-/

namespace SplitQP

open Checked SplitQP.Dense TreeState

/-! ## The game -/

/-- **The graph of an upper triangle** that stores `rows k` in column `k`. -/
def patternGraph (rows : ℕ → List ℕ) : SimpleGraph ℕ where
  Adj a b := (a < b ∧ a ∈ rows b) ∨ (b < a ∧ b ∈ rows a)
  symm := ⟨fun _ _ h => h.symm⟩
  loopless := ⟨fun _ h => by omega⟩

/-- **One move.** Eliminating `j` joins its later neighbours pairwise. -/
def eliminate (G : SimpleGraph ℕ) (j : ℕ) : SimpleGraph ℕ where
  Adj a b := G.Adj a b ∨ a ≠ b ∧ (j < a ∧ G.Adj j a) ∧ (j < b ∧ G.Adj j b)
  symm := ⟨fun _ _ h => h.imp (·.symm) fun ⟨hne, ha, hb⟩ => ⟨hne.symm, hb, ha⟩⟩
  loopless := ⟨fun a h => h.elim (G.loopless.irrefl a) fun ⟨hne, _⟩ => hne rfl⟩

/-- The graph once all vertices before `m` are eliminated, in order. -/
def eliminatedBelow (G : SimpleGraph ℕ) : ℕ → SimpleGraph ℕ
  | 0 => G
  | m + 1 => eliminate (eliminatedBelow G m) m

/-- **The filled graph** of a matrix, given by its upper triangle. -/
def filledGraph {α : Type} (A : Csc α) : SimpleGraph ℕ :=
  eliminatedBelow (patternGraph (storedRows A)) A.ncols

/-- The neighbours of `j` that come after it. -/
def laterNeighbours (G : SimpleGraph ℕ) (j : ℕ) : Set ℕ := {k | j < k ∧ G.Adj j k}

instance (rows : ℕ → List ℕ) : DecidableRel (patternGraph rows).Adj := fun a b =>
  inferInstanceAs (Decidable ((a < b ∧ a ∈ rows b) ∨ (b < a ∧ b ∈ rows a)))

instance (G : SimpleGraph ℕ) [DecidableRel G.Adj] (j : ℕ) : DecidableRel (eliminate G j).Adj :=
  fun a b => inferInstanceAs
    (Decidable (G.Adj a b ∨ a ≠ b ∧ (j < a ∧ G.Adj j a) ∧ (j < b ∧ G.Adj j b)))

instance decidableRelEliminatedBelow (G : SimpleGraph ℕ) [hG : DecidableRel G.Adj] :
    (m : ℕ) → DecidableRel (eliminatedBelow G m).Adj
  | 0 => hG
  | m + 1 =>
    have := decidableRelEliminatedBelow G m
    inferInstanceAs (DecidableRel (eliminate (eliminatedBelow G m) m).Adj)

/-- An arrow: eliminating its tip joins the columns it points from. -/
example : let arrow := patternGraph fun k => [0, k]
    ¬ arrow.Adj 1 2 ∧ (eliminate arrow 0).Adj 1 2 := by decide

variable {rows : ℕ → List ℕ} {G : SimpleGraph ℕ} {a b j k m m' n : ℕ}

/-! ## Which edges a move adds -/

theorem patternGraph_adj_of_lt (hlt : a < b) : (patternGraph rows).Adj a b ↔ a ∈ rows b :=
  (or_iff_left fun h => absurd h.1 hlt.asymm).trans (and_iff_right hlt)

theorem le_eliminate : G ≤ eliminate G j := fun _ _ h => .inl h

theorem eliminatedBelow_mono (h : m ≤ m') : eliminatedBelow G m ≤ eliminatedBelow G m' := by
  induction m', h using Nat.le_induction with
  | base => exact le_rfl
  | succ m' _ ih => exact ih.trans le_eliminate

/-- A vertex gets no edge by its own elimination, nor by that of a later one. -/
theorem eliminate_adj_of_le (h : a ≤ j) : (eliminate G j).Adj a b ↔ G.Adj a b :=
  or_iff_left fun ⟨_, ⟨hlt, _⟩, _⟩ => absurd hlt h.not_gt

/-- **The edges to later vertices stand** when a vertex is eliminated. -/
theorem eliminatedBelow_adj_of_le (h : a ≤ m) (hadj : (eliminatedBelow G m).Adj a b) :
    (eliminatedBelow G a).Adj a b := by
  induction m, h using Nat.le_induction with
  | base => exact hadj
  | succ m ham ih => exact ih ((eliminate_adj_of_le ham).mp hadj)

/-! ## The filled graph is the filled pattern -/

/-- Every edge is an entry of the filled pattern, at each stage. -/
theorem fill_of_eliminatedBelow (hlt : a < b)
    (h : (eliminatedBelow (patternGraph rows) m).Adj a b) : Fill rows b a := by
  induction m generalizing a b with
  | zero => exact .stored ((patternGraph_adj_of_lt hlt).mp h) hlt
  | succ m ih =>
    rcases h with h | ⟨-, ⟨hma, ha⟩, ⟨hmb, hb⟩⟩
    · exact ih hlt h
    · exact .join (ih hmb hb) (ih hma ha) hlt

/-- Every entry of the filled pattern is an edge once its row has been eliminated. -/
theorem eliminatedBelow_of_fill (h : Fill rows k j) (hkm : k ≤ m) :
    (eliminatedBelow (patternGraph rows) m).Adj j k := by
  induction h generalizing m with
  | stored hmem hlt =>
    exact eliminatedBelow_mono (Nat.zero_le m) ((patternGraph_adj_of_lt hlt).mpr hmem)
  | @join k i j hki hji hlt ihk ihj =>
    have hij := hji.lt
    -- both edges at `i` are there when `i` is eliminated
    have hk := eliminatedBelow_adj_of_le (by omega) (ihk hkm)
    have hj := eliminatedBelow_adj_of_le (by omega) (ihj (m := m) (by omega))
    have hmove : (eliminatedBelow (patternGraph rows) (i + 1)).Adj j k :=
      .inr ⟨hlt.ne, ⟨hij, hj⟩, ⟨hij.trans hlt, hk⟩⟩
    exact eliminatedBelow_mono (by omega) hmove

variable {α : Type} {A : Csc α}

/-- **Adjacency in the filled graph.** -/
theorem filledGraph_adj_iff (hlt : j < k) :
    (filledGraph A).Adj j k ↔ Fill (storedRows A) k j :=
  ⟨fill_of_eliminatedBelow hlt, fun h => eliminatedBelow_of_fill h h.lt_ncols.le⟩

theorem mem_laterNeighbours_iff :
    k ∈ laterNeighbours (filledGraph A) j ↔ Fill (storedRows A) k j := by
  constructor
  · rintro ⟨hlt, hadj⟩
    exact (filledGraph_adj_iff hlt).mp hadj
  · intro h
    exact ⟨h.lt, (filledGraph_adj_iff h.lt).mpr h⟩

theorem isParent_iff_isLeast :
    IsParent (storedRows A) j k ↔ IsLeast (laterNeighbours (filledGraph A) j) k := by
  simp only [IsParent, IsLeast, mem_lowerBounds, mem_laterNeighbours_iff]

theorem encard_laterNeighbours : (laterNeighbours (filledGraph A) j).encard =
    (fillRows (storedRows A) A.ncols j).length := by
  have hset : laterNeighbours (filledGraph A) j =
      ((fillRows (storedRows A) A.ncols j).toFinset : Set ℕ) := by
    ext k
    rw [mem_laterNeighbours_iff, Finset.mem_coe, List.mem_toFinset, mem_fillRows]
    exact ⟨fun h => ⟨h.lt_ncols, h⟩, And.right⟩
  rw [hset, Set.encard_coe_eq_coe_finsetCard, List.toFinset_card_of_nodup nodup_fillRows]

variable {β : Type} {B : Csc β}

theorem mem_storedRows_congr (hn : B.ncols = A.ncols)
    (hsame : ∀ k < A.ncols, (storedRows B k).toFinset = (storedRows A k).toFinset) (k i : ℕ) :
    i ∈ storedRows B k ↔ i ∈ storedRows A k := by
  constructor
  · intro h
    have hk : k < A.ncols := hn ▸ lt_ncols_of_mem_storedRows h
    rwa [← List.mem_toFinset, ← hsame k hk, List.mem_toFinset]
  · intro h
    rwa [← List.mem_toFinset, hsame k (lt_ncols_of_mem_storedRows h), List.mem_toFinset]

/-- Only which rows are stored in a column counts. -/
theorem filledGraph_congr (hn : B.ncols = A.ncols)
    (hmem : ∀ k i, i ∈ storedRows B k ↔ i ∈ storedRows A k) : filledGraph B = filledGraph A := by
  have hpattern : patternGraph (storedRows B) = patternGraph (storedRows A) := by
    ext a b
    simp only [patternGraph, hmem]
  rw [filledGraph, filledGraph, hn, hpattern]

/-! ## The tree of a graph -/

/-- **`parent` and `counts` are read off the graph `G`** on `n` vertices. -/
structure IsTreeOf (G : SimpleGraph ℕ) (n : ℕ) (parent : Array (Option ℕ)) (counts : Array ℕ) :
    Prop where
  size_parent : parent.size = n
  size_counts : counts.size = n
  /-- The parent of a column is its first later neighbour. -/
  parent_eq_some : ∀ j < n, ∀ p, parent[j]? = some (some p) ↔ IsLeast (laterNeighbours G j) p
  /-- A column without later neighbours has no parent. -/
  parent_eq_none : ∀ j < n, parent[j]? = some none ↔ laterNeighbours G j = ∅
  /-- The count of a column is the number of its later neighbours. -/
  count_eq : ∀ j < n, ∃ c, counts[j]? = some c ∧ (laterNeighbours G j).encard = c

/-- Later neighbours have a first. -/
theorem exists_isLeast_laterNeighbours (h : (laterNeighbours G j).Nonempty) :
    ∃ p, IsLeast (laterNeighbours G j) p :=
  ⟨sInf (laterNeighbours G j), Nat.sInf_mem h, fun _ => Nat.sInf_le⟩

/-- **A graph has one tree.** -/
theorem IsTreeOf.unique {parent parent' : Array (Option ℕ)} {counts counts' : Array ℕ}
    (h : IsTreeOf G n parent counts) (h' : IsTreeOf G n parent' counts') :
    parent = parent' ∧ counts = counts' := by
  constructor
  · refine ext_getD none h.size_parent h'.size_parent fun j hj => ?_
    simp only [Array.getD_eq_getD_getElem?]
    rcases (laterNeighbours G j).eq_empty_or_nonempty with hnone | hsome
    · rw [(h.parent_eq_none j hj).mpr hnone, (h'.parent_eq_none j hj).mpr hnone]
    · obtain ⟨p, hp⟩ := exists_isLeast_laterNeighbours hsome
      rw [(h.parent_eq_some j hj p).mpr hp, (h'.parent_eq_some j hj p).mpr hp]
  · refine ext_getD 0 h.size_counts h'.size_counts fun j hj => ?_
    simp only [Array.getD_eq_getD_getElem?]
    obtain ⟨c, hc, hcard⟩ := h.count_eq j hj
    obtain ⟨c', hc', hcard'⟩ := h'.count_eq j hj
    have hcc : c = c' := by exact_mod_cast hcard.symm.trans hcard'
    rw [hc, hc', hcc]

/-- The tree of the filled pattern is that of the filled graph. -/
theorem IsTree.isTreeOf {parent : Array (Option ℕ)} {counts : Array ℕ}
    (h : IsTree (storedRows A) A.ncols parent) (hsize : counts.size = A.ncols)
    (hcounts : ∀ j < A.ncols,
      counts.getD j 0 = (fillRows (storedRows A) A.ncols j).length) :
    IsTreeOf (filledGraph A) A.ncols parent counts := by
  have hget : ∀ j < A.ncols, parent[j]? = some (parent.getD j none) := fun j hj => by
    have hlt : j < parent.size := h.size_eq ▸ hj
    rw [Array.getElem?_eq_getElem hlt, getD_of_lt none hlt]
  refine ⟨h.size_eq, hsize, fun j hj p => ?_, fun j hj => ?_, fun j hj => ?_⟩
  · rw [hget j hj, Option.some_inj, h.parent_iff j hj, isParent_iff_isLeast]
  · rw [hget j hj, Option.some_inj, Option.eq_none_iff_forall_ne_some,
      Set.eq_empty_iff_forall_notMem]
    constructor
    · intro hnone k hk
      obtain ⟨p, hp⟩ := exists_isLeast_laterNeighbours ⟨k, hk⟩
      exact hnone p ((h.parent_iff j hj p).mpr (isParent_iff_isLeast.mpr hp))
    · intro hempty p hp
      exact hempty p (isParent_iff_isLeast.mp ((h.parent_iff j hj p).mp hp)).1
  · have hlt : j < counts.size := hsize ▸ hj
    refine ⟨_, Array.getElem?_eq_getElem hlt, ?_⟩
    rw [encard_laterNeighbours, ← hcounts j hj, getD_of_lt 0 hlt]

/-- The walk answers with the tree of the filled graph. -/
theorem eliminationTree_eq_ok (hA : A.WellFormed) (hle : ∀ k, ∀ i ∈ storedRows A k, i ≤ k) :
    ∃ parent counts, eliminationTree A = .ok (parent, counts) ∧
      IsTreeOf (filledGraph A) A.ncols parent counts := by
  obtain ⟨⟨parent, counts⟩, heq, htree, hsize, hcounts⟩ := eliminationTree_ensures hA hle
  exact ⟨parent, counts, heq, htree.isTreeOf hsize hcounts⟩

theorem storedRows_le_of_isUpper (hA : A.WellFormed) (hupper : A.isUpper = .ok true) :
    ∀ k, ∀ i ∈ storedRows A k, i ≤ k := by
  intro k i hi
  rw [Ldl.isUpper_eq hA, Except.ok.injEq] at hupper
  simp only [List.all_eq_true, List.mem_range, decide_eq_true_eq] at hupper
  exact hupper k (lt_ncols_of_mem_storedRows hi) i hi

/-- **The elimination tree is the tree of the fill.** On every upper triangle
in valid format the walk ends, since no path is longer than the number of
columns. The parent of each column is then its first later neighbour in
the filled graph, and its count the number of them. Another matrix that
stores entries in the same places, in any order and any number of times
each, has the same answer. -/
theorem eliminationTree_of_checkFormat (hformat : A.checkFormat = .ok ())
    (hupper : A.isUpper = .ok true) :
    ∃ parent counts, eliminationTree A = .ok (parent, counts) ∧
      IsTreeOf (filledGraph A) A.ncols parent counts ∧
      ∀ {β : Type} (B : Csc β), B.checkFormat = .ok () → B.ncols = A.ncols →
        (∀ k < A.ncols, (storedRows B k).toFinset = (storedRows A k).toFinset) →
        eliminationTree B = .ok (parent, counts) := by
  have hA := Csc.checkFormat_eq_ok_iff.mp hformat
  have hle := storedRows_le_of_isUpper hA hupper
  obtain ⟨parent, counts, heq, htree⟩ := eliminationTree_eq_ok hA hle
  refine ⟨parent, counts, heq, htree, fun B hB hn hsame => ?_⟩
  have hmem := mem_storedRows_congr hn hsame
  obtain ⟨parent', counts', heq', htree'⟩ :=
    eliminationTree_eq_ok (Csc.checkFormat_eq_ok_iff.mp hB) fun k i hi => hle k i ((hmem k i).mp hi)
  rw [filledGraph_congr hn hmem, hn] at htree'
  obtain ⟨rfl, rfl⟩ := htree.unique htree'
  exact heq'

/-- The path `1 - 0 - 3 - 2`, with a diagonal. -/
def fourPath : Csc ℤ :=
  ⟨4, 4, #[0, 1, 3, 4, 7], #[0, 0, 1, 2, 0, 2, 3], #[4, 1, 3, -2, 1, 1, -1]⟩

/-- The places of `fourPath`, out of order, some of them twice. -/
def fourPathShuffled : Csc Unit :=
  ⟨4, 4, #[0, 2, 5, 6, 10], #[0, 0, 1, 0, 1, 2, 3, 2, 0, 2], .replicate 10 ()⟩

/-- Eliminating column `0` joins columns `1` and `3`. -/
theorem eliminationTree_of_checkFormat_fourPath : fourPath.checkFormat = .ok () ∧
    fourPath.isUpper = .ok true ∧ ¬ (patternGraph (storedRows fourPath)).Adj 1 3 ∧
    IsTreeOf (filledGraph fourPath) 4 #[some 1, some 3, some 3, none] #[2, 1, 1, 0] ∧
    eliminationTree fourPathShuffled = .ok (#[some 1, some 3, some 3, none], #[2, 1, 1, 0]) := by
  have hformat : fourPath.checkFormat = .ok () := by decide +kernel
  have hupper : fourPath.isUpper = .ok true := by decide +kernel
  have hanswer : eliminationTree fourPath =
      .ok (#[some 1, some 3, some 3, none], #[2, 1, 1, 0]) := by decide +kernel
  obtain ⟨parent, counts, heq, htree, hother⟩ := eliminationTree_of_checkFormat hformat hupper
  obtain ⟨rfl, rfl⟩ := Prod.mk.inj (Except.ok.inj (heq.symm.trans hanswer))
  exact ⟨hformat, hupper, by decide, htree, hother fourPathShuffled (by decide +kernel) rfl
    (by decide +kernel)⟩

end SplitQP
