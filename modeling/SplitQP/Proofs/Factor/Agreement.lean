import SplitQP.Proofs.Factor.Trace
import SplitQP.Proofs.Factor.Trimmed
/-!
# The two traversals of the tree agree

Columns of the factor are sized by one traversal of the pattern, which
marks a column with the row that saw it last and takes the row itself for
a parent not yet known (`TreeState`). They are filled by another, which
cuts every path before the row and keeps two stacks in one array
(`Pattern`). Row by row both find the filled pattern, so what one counts
the other visits (`SameColumns`), and every slot there is room for is
written once (`PhasesAgree`). Nothing of this depends on the numbers.
-/

namespace SplitQP

open Checked SplitQP.Dense

namespace TreeState

variable {α : Type} {upper : Csc α} {k : ℕ}

/-- The tree as `eliminationTree` has it when it comes to row `k`. -/
def upTo (upper : Csc α) (k : ℕ) : Checked TreeState :=
  (upper.columnIndices.take k).foldlM (passRow upper) (.initial upper.ncols)

theorem upTo_ensures (hw : upper.WellFormed) (hup : ∀ k, ∀ i ∈ storedRows upper k, i ≤ k)
    (hk : k ≤ upper.ncols) :
    Ensures (upTo upper k) (Passed (storedRows upper) upper.ncols k) := by
  rw [upTo, hw.columnIndices_eq, List.take_range, Nat.min_eq_left hk]
  exact ensures_foldlM_range (passed_initial _ _) fun i s hi hs =>
    passRow_ensures hw hup (by omega) hs

/-- **`columns` are those that the elimination tree counts for row `k`,** and none of
them comes twice. -/
structure SameColumns (upper : Csc α) (k : ℕ) (columns : List ℕ) : Prop where
  nodup : columns.Nodup
  lt : ∀ j ∈ columns, j < k
  counted : ∃ s s', upTo upper k = .ok s ∧ passRow upper s k = .ok s' ∧
    ∀ j, s'.counts.getD j 0 = s.counts.getD j 0 + if j ∈ columns then 1 else 0

/-- A row counts one more entry in every column it fills in. -/
theorem Passed.count_succ {rows : ℕ → List ℕ} {n : ℕ} {s s' : TreeState} {columns : List ℕ}
    (hs : Passed rows n k s) (hs' : Passed rows n (k + 1) s') (hk : k < n)
    (hcolumns : ∀ j, j ∈ columns ↔ Fill rows k j) (j : ℕ) :
    s'.counts.getD j 0 = s.counts.getD j 0 + if j ∈ columns then 1 else 0 := by
  by_cases hj : j < n
  · rw [hs'.count_eq j hj, hs.count_eq j hj]
    by_cases hfill : Fill rows k j
    · rw [fillRows_succ_of_fill hfill, if_pos ((hcolumns j).mpr hfill), List.length_append,
        List.length_singleton]
    · rw [fillRows_succ_of_not_fill hfill, if_neg (mt (hcolumns j).mp hfill), Nat.add_zero]
  · have hnot : j ∉ columns := fun hmem => by
      have := ((hcolumns j).mp hmem).lt
      omega
    rw [if_neg hnot, Nat.add_zero, Array.getD, Array.getD, dif_neg (by rw [hs'.size_counts]; omega),
      dif_neg (by rw [hs.size_counts]; omega)]

end TreeState

open TreeState

/-! ## Two stacks in one array -/

namespace Pattern

/-- **Adding the path from column `i` spares the pattern:** the path ends below it,
leaves it as it is, and is then put in front of it. -/
def Spares (parent : Array (Option ℕ)) (k i : ℕ) (p : Pattern) : Prop :=
  Ensures (climb parent k p.stack.size i p) fun q =>
    q.top = p.top ∧ q.len ≤ q.top ∧ (∀ m, p.top ≤ m → q.stack[m]? = p.stack[m]?) ∧
    Ensures (raise q.len q) fun r => r.columns = q.path ++ p.columns

variable {rows : ℕ → List ℕ} {parent : Array (Option ℕ)} {n k : ℕ} {path pat : List ℕ}
  {p q : Pattern}

theorem Holds.path_eq (h : Holds n k path pat p) (hkn : k ≤ n) : p.path = path := by
  have hle := h.length_le
  have hsize := h.size_stack
  apply List.ext_getElem?
  intro m
  rw [Pattern.path, Array.getElem?_toList, Array.take_eq_extract, Array.getElem?_extract,
    Nat.zero_add]
  rcases Nat.lt_or_ge m path.length with hlt | hge
  · rw [if_pos (by rw [h.len_eq]; omega), h.bottom m hlt]
  · rw [if_neg (by rw [h.len_eq]; omega), List.getElem?_eq_none hge]

/-- The pattern stands where it stood. -/
theorem Holds.getElem?_eq (hp : Holds n k [] pat p) (hq : Holds n k path pat q) {m : ℕ}
    (hm : p.top ≤ m) : q.stack[m]? = p.stack[m]? := by
  have hptop := hp.top_eq
  have hqtop := hq.top_eq
  obtain ⟨i, rfl⟩ := Nat.exists_eq_add_of_le hm
  rcases Nat.lt_or_ge i pat.length with hlt | hge
  · rw [hp.upper i hlt, ← hq.upper i hlt]
    congr 1
    omega
  · rw [Array.getElem?_eq_none (by rw [hq.size_stack]; omega),
      Array.getElem?_eq_none (by rw [hp.size_stack]; omega)]

/-- **The two stacks never meet,** for their columns are distinct and below the row. -/
theorem Holds.spares (ht : IsTree rows n parent) (hkn : k < n) (h : Holds n k [] pat p) {i : ℕ}
    (hik : i < k) : p.Spares parent k i := by
  refine (climb_ensures ht hkn h hik (by simp) (by rw [h.size_stack]; omega)).mono ?_
  intro q hq
  rw [List.nil_append] at hq
  have hle := hq.length_le
  have hptop := h.top_eq
  have hqtop := hq.top_eq
  refine ⟨by omega, by rw [hq.len_eq]; omega, fun m => h.getElem?_eq hq, ?_⟩
  refine (raise_ensures hkn hq).mono fun r hr => ?_
  rw [Pattern.columns, hr.extract_eq, hq.path_eq hkn.le, Pattern.columns, h.extract_eq]

end Pattern

/-! ## Every slot once -/

theorem pairwise_fillRows {rows : ℕ → List ℕ} {n j : ℕ} :
    (fillRows rows n j).Pairwise (· < ·) := List.pairwise_lt_range.filter _

/-- A row stands in a column where the rows above it end. -/
theorem getElem?_fillRows {rows : ℕ → List ℕ} {n k j : ℕ} (h : Fill rows k j) (hk : k < n) :
    (fillRows rows n j)[(fillRows rows k j).length]? = some k := by
  induction n, hk using Nat.le_induction with
  | base => simp [fillRows_succ_of_fill h]
  | succ n hkn ih =>
    by_cases hn : Fill rows n j
    · rw [fillRows_succ_of_fill hn, List.getElem?_append_left (length_fillRows_lt h hkn), ih]
    · rw [fillRows_succ_of_not_fill hn, ih]

variable {α : Type}

/-- **What is left of a factorisation that does not fail:** every slot was written once,
rows ascend in each column and are below its diagonal, and no column is marked. -/
structure Completed [Scalar α] (upper : Csc α) (parent : Array (Option ℕ)) (colStart : Array ℕ)
    (w : Pivots α) (t : Scratch α) (w' : Pivots α) (t' : Scratch α) : Prop where
  size_rowIndex : w'.rowIndex.size = colStart.getD upper.ncols 0
  written : ∀ slot < w'.rowIndex.size,
    ∃! kj : ℕ × ℕ, Writes upper parent colStart w t kj.1 kj.2 slot
  ascending : ∀ j < upper.ncols, ∀ p q, colStart.getD j 0 ≤ p → p < q →
    q < colStart.getD (j + 1) 0 → w'.rowIndex.getD p 0 < w'.rowIndex.getD q 0
  below : ∀ j < upper.ncols, ∀ p, colStart.getD j 0 ≤ p → p < colStart.getD (j + 1) 0 →
    j < w'.rowIndex.getD p 0 ∧ w'.rowIndex.getD p 0 < upper.ncols
  unmarked : ∀ m ∈ t'.marked, m = false

/-- **The symbolic and the numeric phase agree,** when a factorisation begins with the
storage `w` and the scratch `t`. -/
structure PhasesAgree [Scalar α] (upper : Csc α) (parent : Array (Option ℕ)) (colStart : Array ℕ)
    (w : Pivots α) (t : Scratch α) : Prop where
  /-- Columns have room for what the elimination tree counts in them. -/
  sized : ∃ counts, eliminationTree upper = .ok (parent, counts) ∧ colStart.getD 0 0 = 0 ∧
    ∀ j < upper.ncols, colStart.getD (j + 1) 0 = colStart.getD j 0 + counts.getD j 0
  answers : ∃ r, factoriseIn upper parent colStart w t = .ok r
  /-- A row visits the columns that are counted for it. -/
  visits : ∀ k s, RowStart upper parent colStart w t k s → k < upper.ncols →
    Ensures (gatherRow upper parent k s.scratch) fun g => SameColumns upper k g.pattern.columns
  /-- No path that is pushed for a row reaches the pattern found before. -/
  spares : ∀ k s, RowStart upper parent colStart w t k s → k < upper.ncols →
    ∀ before e after, upper.column k = .ok (before ++ e :: after) → e.1 ≠ k →
    Ensures (before.foldlM (gatherEntry parent k) s.scratch.gathering) fun g =>
      g.pattern.Spares parent k e.1
  /-- A column is written to in its own slots only. -/
  bounded : ∀ k j x, Eliminates upper parent colStart w t k j x →
    Ensures (eliminateColumn colStart k x j) fun x' => ∃ slot entry,
      x.2.1.next[j]? = some slot ∧ colStart.getD j 0 ≤ slot ∧ slot < colStart.getD (j + 1) 0 ∧
      x'.2.2.rowIndex = x.2.2.rowIndex.setIfInBounds slot k ∧
      x'.2.2.value = x.2.2.value.setIfInBounds slot entry
  /-- No slot is written twice, also where a zero pivot ends the factorisation. -/
  once : ∀ k j k' j' slot, Writes upper parent colStart w t k j slot →
    Writes upper parent colStart w t k' j' slot → k = k' ∧ j = j'
  completes : ∀ w' t' positive,
    factoriseIn upper parent colStart w t = .ok (w', t', .ok positive) →
    Completed upper parent colStart w t w' t'

section Analysed

variable {upper : Csc α} {parent : Array (Option ℕ)} {colStart : Array ℕ}

/-- The analysis is the one that the elimination tree gives. -/
theorem Analysed.sized (ha : Analysed upper parent colStart) : ∃ counts,
    eliminationTree upper = .ok (parent, counts) ∧ colStart.getD 0 0 = 0 ∧
    ∀ j < upper.ncols, colStart.getD (j + 1) 0 = colStart.getD j 0 + counts.getD j 0 := by
  obtain ⟨⟨parent', counts⟩, hok, htree, -, hcounts⟩ :=
    eliminationTree_ensures ha.wellFormed ha.row_le
  have hparent : parent' = parent := by
    refine ext_getD none (htree.size_eq.trans ha.tree.size_eq.symm) rfl fun i hi => ?_
    have hin : i < upper.ncols := by rwa [← ha.tree.size_eq]
    refine Option.ext fun p => ?_
    rw [htree.parent_iff i hin, ha.tree.parent_iff i hin]
  subst hparent
  refine ⟨counts, hok, ha.layout.zero, fun j hj => ?_⟩
  rw [ha.layout.succ j hj, hcounts j hj]

variable [Scalar α] (ha : Analysed upper parent colStart) {w : Pivots α} {t : Scratch α}
  (hw : w.Fits upper.ncols (colStart.getD upper.ncols 0)) (ht : t.Fits upper.ncols)

include ha hw ht

theorem RowStart.sameColumns {k : ℕ} {s : RowState α} (hk : k < upper.ncols)
    (h : RowStart upper parent colStart w t k s) :
    Ensures (gatherRow upper parent k s.scratch) fun g =>
      SameColumns upper k g.pattern.columns := by
  refine (gatherRow_ensures ha hk (h.between ha hw ht)).mono fun g hg => ?_
  have hcolumns : g.pattern.columns = patternOf upper parent k := hg.pattern.extract_eq
  have hpat := ha.isPattern hk.le
  obtain ⟨before, hbefore, hpassed⟩ := upTo_ensures ha.wellFormed ha.row_le hk.le
  obtain ⟨after, hafter, hpassed'⟩ := passRow_ensures ha.wellFormed ha.row_le hk hpassed
  rw [hcolumns]
  exact ⟨hpat.nodup, hpat.lt, before, after, hbefore, hafter,
    hpassed.count_succ hpassed' hk fun j => ha.mem_patternOf_iff hk.le⟩

theorem RowStart.spares {k : ℕ} {s : RowState α} (hk : k < upper.ncols)
    (h : RowStart upper parent colStart w t k s) {before after : List (ℕ × α)} {e : ℕ × α}
    (hcolumn : upper.column k = .ok (before ++ e :: after)) (hek : e.1 ≠ k) :
    Ensures (before.foldlM (gatherEntry parent k) s.scratch.gathering) fun g =>
      g.pattern.Spares parent k e.1 := by
  rw [ha.wellFormed.column_eq hk] at hcolumn
  have hentries : storedEntries upper k = before ++ e :: after := Except.ok.inj hcolumn
  have hstored : ∀ e' ∈ before ++ e :: after, e'.1 ≤ k ∧ e'.1 ∈ storedRows upper k := by
    intro e' he'
    have hmem : e'.1 ∈ storedRows upper k := List.mem_map_of_mem (by rwa [← hentries] at he')
    exact ⟨ha.row_le k e'.1 hmem, hmem⟩
  refine (gather_ensures ha.tree hk (fun e' he' => hstored e' (by simp [he']))
    (h.between ha hw ht).beginGather).mono fun g hg => ?_
  have hle := (hstored e (by simp)).1
  exact hg.pattern.spares ha.tree hk (by omega)

theorem Eliminates.bounded {k j : ℕ} {x : α × Scratch α × Pivots α}
    (h : Eliminates upper parent colStart w t k j x) :
    Ensures (eliminateColumn colStart k x j) fun x' => ∃ slot entry,
      x.2.1.next[j]? = some slot ∧ colStart.getD j 0 ≤ slot ∧ slot < colStart.getD (j + 1) 0 ∧
      x'.2.2.rowIndex = x.2.2.rowIndex.setIfInBounds slot k ∧
      x'.2.2.value = x.2.2.value.setIfInBounds slot entry := by
  obtain ⟨hk, before, after, hpat, hin⟩ := h.inRow ha hw ht
  obtain ⟨x', hx', -⟩ := eliminateColumn_ensures ha hk hpat hin
  obtain ⟨slot, entry, hslot, hrow, hvalue⟩ := eliminateColumn_writes hx'
  obtain ⟨-, hfill, heq⟩ := Writes.slot_eq ha hw ht ⟨x, h, hslot⟩
  have hroom := length_fillRows_lt hfill hk
  have hsucc := ha.layout.succ j (hfill.lt.trans hk)
  exact .of_eq hx' ⟨slot, entry, hslot, by omega, by omega, hrow, hvalue⟩

/-- **A slot belongs to one entry.** -/
theorem Writes.unique {k j k' j' slot : ℕ} (h : Writes upper parent colStart w t k j slot)
    (h' : Writes upper parent colStart w t k' j' slot) : k = k' ∧ j = j' := by
  obtain ⟨hk, hfill, heq⟩ := h.slot_eq ha hw ht
  obtain ⟨hk', hfill', heq'⟩ := h'.slot_eq ha hw ht
  have hj : j = j' := by
    by_contra hne
    exact ha.layout.slot_ne (hfill.lt.trans hk) (hfill'.lt.trans hk') (length_fillRows_lt hfill hk)
      (length_fillRows_lt hfill' hk') hne (heq.symm.trans heq')
  subst hj
  refine ⟨?_, rfl⟩
  rcases Nat.lt_trichotomy k k' with hlt | rfl | hgt
  · have := length_fillRows_lt hfill hlt
    omega
  · rfl
  · have := length_fillRows_lt hfill' hgt
    omega

/-- What the slots of a column hold in the end. -/
theorem RowStart.rowIndex_eq {s : RowState α}
    (h : RowStart upper parent colStart w t upper.ncols s) {j p : ℕ} (hj : j < upper.ncols)
    (hp : colStart.getD j 0 ≤ p) (hp' : p < colStart.getD (j + 1) 0) :
    ∃ hlt : p - colStart.getD j 0 < (fillRows (storedRows upper) upper.ncols j).length,
      s.pivots.rowIndex.getD p 0 =
        (fillRows (storedRows upper) upper.ncols j)[p - colStart.getD j 0] := by
  rw [ha.layout.succ j hj] at hp'
  have hlt : p - colStart.getD j 0 < (fillRows (storedRows upper) upper.ncols j).length := by omega
  refine ⟨hlt, ?_⟩
  have hslot := ((h.between ha hw ht).written.slot j hj _ _ (List.getElem?_eq_getElem hlt)).1
  rw [Nat.add_sub_cancel' hp] at hslot
  obtain ⟨hsize, hget⟩ := Array.getElem?_eq_some_iff.mp hslot
  rw [getD_of_lt 0 hsize, hget]

/-- **After its last row** a factorisation is complete. -/
theorem RowStart.completed {s : RowState α}
    (h : RowStart upper parent colStart w t upper.ncols s) :
    Completed upper parent colStart w t s.pivots s.scratch where
  size_rowIndex := (h.between ha hw ht).written.size_rowIndex
  written slot hslot := by
    rw [(h.between ha hw ht).written.size_rowIndex] at hslot
    obtain ⟨j, hj, m, hm, rfl⟩ := ha.layout.exists_slot le_rfl hslot
    -- the row that the slot is for is the one that comes there in the column
    obtain ⟨hk, hfill⟩ := mem_fillRows.mp (List.getElem_mem hm)
    generalize hrow : (fillRows (storedRows upper) upper.ncols j)[m] = k at hk hfill
    have hat := getElem?_fillRows hfill hk
    obtain ⟨hlen, hget⟩ := List.getElem?_eq_some_iff.mp hat
    obtain rfl : (fillRows (storedRows upper) k j).length = m :=
      (nodup_fillRows.getElem_inj_iff).mp (hget.trans hrow.symm)
    obtain ⟨s', hs'⟩ := h.exists_of_le hk.le
    have hwrites := hs'.writes ha hw ht hk hfill
    refine ⟨(k, j), hwrites, ?_⟩
    rintro ⟨k', j'⟩ hother
    obtain ⟨rfl, rfl⟩ := Writes.unique ha hw ht hother hwrites
    rfl
  ascending j hj p q hp hpq hq := by
    obtain ⟨hplt, hpeq⟩ := h.rowIndex_eq ha hw ht hj hp (hpq.trans hq)
    obtain ⟨hqlt, hqeq⟩ := h.rowIndex_eq ha hw ht hj (hp.trans hpq.le) hq
    rw [hpeq, hqeq]
    exact List.pairwise_iff_getElem.mp pairwise_fillRows _ _ hplt hqlt (by omega)
  below j hj p hp hp' := by
    obtain ⟨hlt, heq⟩ := h.rowIndex_eq ha hw ht hj hp hp'
    obtain ⟨hn, hfill⟩ := mem_fillRows.mp (List.getElem_mem hlt)
    rw [heq]
    exact ⟨hfill.lt, hn⟩
  unmarked m hm := by
    have hbetween := h.between ha hw ht
    obtain ⟨i, hi, rfl⟩ := Array.getElem_of_mem hm
    rw [← getD_of_lt false hi]
    exact hbetween.unmarked i (by rwa [← hbetween.size_marked])

/-- **On an analysed pattern the phases agree,** whatever the values and whatever storage
and scratch hold. -/
theorem Analysed.phasesAgree : PhasesAgree upper parent colStart w t where
  sized := ha.sized
  answers := by
    obtain ⟨r, hr, -⟩ := factoriseIn_ensures ha hw ht
    exact ⟨r, hr⟩
  visits _ _ h hk := h.sameColumns ha hw ht hk
  spares _ _ h hk _ _ _ hcolumn hek := h.spares ha hw ht hk hcolumn hek
  bounded _ _ _ h := h.bounded ha hw ht
  once _ _ _ _ _ h h' := h.unique ha hw ht h'
  completes w' t' positive h := by
    obtain ⟨s, hs, rfl, rfl⟩ := rowStart_of_factoriseIn h
    rw [hw.size_d] at hs
    exact hs.completed ha hw ht

end Analysed

namespace Ldl

variable [Scalar α] {A : Csc α}

/-- **The phases agree at every factorisation,** with the entries as they may have been
overwritten, and in storage and scratch that may have been used before. -/
def PhasesAgree (f : Ldl α) : Prop :=
  ∀ (upper : Csc α) (w : Pivots α) (t : Scratch α), Csc.SamePattern f.upper upper →
    w.Fits f.upper.ncols (f.colStart.getD f.upper.ncols 0) → t.Fits f.upper.ncols →
    SplitQP.PhasesAgree upper f.parent f.colStart w t

theorem Analyses.phasesAgree {inv : Array ℕ} {f : Ldl α} (h : Analyses A inv f) :
    f.PhasesAgree := by
  intro upper w t hsame hw ht
  rw [← hsame.ncols_eq] at hw ht
  exact (h.analysed.congr hsame).phasesAgree hw ht

/-- **Symbolic and numeric phase agree** for every pattern that passes the checks and every
order of elimination. Only arrays that cannot be read as columns are beyond this:
analysing them faults. -/
theorem prepare_phasesAgree (hpattern : checkPattern A = .ok (.ok ())) {order : EliminationOrder}
    {perm : Array ℕ} (hchoose : order.choose A = .ok perm) (hperm : IsOrder A.ncols perm) :
    (∃ f, prepare A order = .ok (.ok f) ∧ f.perm = perm ∧ f.PhasesAgree) ∨
      (¬ A.Readable ∧ ∃ fault, prepare A order = .error fault) := by
  have hprepare : prepare A order = analyse A perm := by
    rw [prepare, hpattern]
    simp only [ok_bind, hchoose]
  by_cases hA : A.Readable
  · left
    have htrimmed : checkPattern A.trimmed = .ok (.ok ()) := by rwa [checkPattern_trimmed hA]
    have hsq := (isTriangle_of_checkPattern hA.wellFormed_trimmed htrimmed).1
    obtain ⟨_, hok, f, inv, rfl, hfperm, hf⟩ := analyse_ensures hA.wellFormed_trimmed hsq hperm
    rw [analyse_trimmed hA] at hok
    exact ⟨f, hprepare.trans hok, hfperm, hf.phasesAgree⟩
  · right
    refine ⟨hA, ?_⟩
    obtain ⟨inv, hinv, -⟩ := Permutation.inverse_ensures hperm
    rcases hresult : analyse A perm with fault | e | f
    · exact ⟨fault, hprepare.trans hresult⟩
    · -- an order is never refused
      rw [analyse, hinv] at hresult
      obtain ⟨⟨upper, landing⟩, -, hresult⟩ := bind_eq_ok.mp hresult
      obtain ⟨⟨parent, counts⟩, -, hresult⟩ := bind_eq_ok.mp hresult
      cases hresult
    · exact absurd (readable_of_prepare (hprepare.trans hresult)) hA

/-- Columns in no order, the last with two entries in one place. -/
def tangled : Csc ℚ := ⟨3, 3, #[0, 1, 3, 7], #[0, 1, 0, 2, 0, 1, 0], #[4, 5, -1, 6, 1, -2, 1]⟩

theorem prepare_phasesAgree_tangled : ∃ f, prepare tangled (.given #[2, 0, 1]) = .ok (.ok f) ∧
    f.perm = #[2, 0, 1] ∧ f.PhasesAgree := by
  have hpattern : checkPattern tangled = .ok (.ok ()) := by rfl
  have hperm : IsOrder tangled.ncols #[2, 0, 1] := by decide
  have hanswers : (prepare tangled (.given #[2, 0, 1])).isOk = true := by decide +kernel
  refine (prepare_phasesAgree hpattern (choose_given hperm) hperm).resolve_right ?_
  rintro ⟨-, fault, hfault⟩
  rw [hfault] at hanswers
  cases hanswers

end Ldl

end SplitQP
