import SplitQP.Proofs.Factor.Permuted
import SplitQP.Proofs.Factor.Factorise
/-!
# Factorising does not fault

Whatever the arithmetic, a well-formed square upper triangle with a
diagonal is analysed for every order (`analyse_ensures`), and what the
analysis leaves is what `refactor` needs and keeps (`Analyses`). Writing
entries of the input keeps it too, for the input so changed
(`setEntries_ensures`).
-/

namespace SplitQP

open Checked SplitQP.Dense TreeState

variable {α : Type}

/-- No entry below the diagonal. -/
def Csc.IsUpperTriangular (A : Csc α) : Prop := ∀ e ∈ A.entryList, e.row ≤ e.col

/-- An entry in every place of the diagonal. -/
def Csc.HasDiagonal (A : Csc α) : Prop := ∀ j < A.ncols, ∃ e ∈ A.entryList, e.row = j ∧ e.col = j

instance (A : Csc α) : Decidable A.IsUpperTriangular :=
  inferInstanceAs (Decidable (∀ e ∈ A.entryList, e.row ≤ e.col))

instance (A : Csc α) : Decidable A.HasDiagonal :=
  inferInstanceAs (Decidable (∀ j < A.ncols, ∃ e ∈ A.entryList, e.row = j ∧ e.col = j))

/-- Other values leave a triangle one. -/
theorem Csc.SamePattern.isUpperTriangular {A B : Csc α} (h : Csc.SamePattern A B)
    (hA : A.WellFormed) (hup : A.IsUpperTriangular) : B.IsUpperTriangular := by
  intro e he
  have hplace : (e.row, e.col) ∈ A.entryList.map fun e => (e.row, e.col) := by
    rw [← h.map_place hA]
    exact List.mem_map_of_mem he
  obtain ⟨e', he', heq⟩ := List.mem_map.mp hplace
  have := hup e' he'
  simp only [Prod.mk.injEq] at heq
  omega

theorem Csc.SamePattern.hasDiagonal {A B : Csc α} (h : Csc.SamePattern A B) (hA : A.WellFormed)
    (hdiag : A.HasDiagonal) : B.HasDiagonal := by
  intro j hj
  rw [h.ncols_eq] at hj
  obtain ⟨e, he, hrow, hcol⟩ := hdiag j hj
  have hplace : (e.row, e.col) ∈ B.entryList.map fun e => (e.row, e.col) := by
    rw [h.map_place hA]
    exact List.mem_map_of_mem he
  obtain ⟨e', he', heq⟩ := List.mem_map.mp hplace
  obtain ⟨hrow', hcol'⟩ := Prod.mk.inj heq
  exact ⟨e', he', hrow'.trans hrow, hcol'.trans hcol⟩

namespace Ldl

/-! ## The pattern is checked -/

theorem mem_storedRows_iff {A : Csc α} {i j : ℕ} (hj : j < A.ncols) :
    i ∈ storedRows A j ↔ ∃ e ∈ A.entryList, e.row = i ∧ e.col = j := by
  rw [storedRows, List.getD_eq_getElem _ _ (by simpa using hj), List.mem_map]
  constructor
  · rintro ⟨p, hp, rfl⟩
    exact ⟨⟨p.1, j, p.2⟩, Csc.mem_entriesOf.mpr ⟨by simpa using hj, hp⟩, rfl, rfl⟩
  · rintro ⟨e, he, rfl, rfl⟩
    obtain ⟨hlt, hmem⟩ := Csc.mem_entriesOf.mp he
    exact ⟨(e.row, e.value), hmem, rfl⟩

theorem isUpper_eq {A : Csc α} (hA : A.WellFormed) :
    A.isUpper = .ok ((List.range A.ncols).all fun j => (storedRows A j).all (· ≤ j)) := by
  rw [Csc.isUpper, hA.columnIndices_eq]
  refine allM_eq_ok fun j hj => ?_
  rw [hA.columnRows_eq (List.mem_range.mp hj)]
  rfl

/-- The walk finds exactly the upper triangles. -/
theorem isUpper_eq_true_iff {A : Csc α} (hA : A.WellFormed) :
    A.isUpper = .ok true ↔ A.IsUpperTriangular := by
  rw [isUpper_eq hA, Except.ok.injEq]
  simp only [List.all_eq_true, List.mem_range, decide_eq_true_eq]
  constructor
  · intro h e he
    have hcol := Csc.col_lt_of_mem he
    exact h e.col hcol e.row ((mem_storedRows_iff hcol).mpr ⟨e, he, rfl, rfl⟩)
  · intro h j hj i hi
    obtain ⟨e, he, rfl, rfl⟩ := (mem_storedRows_iff hj).mp hi
    exact h e he

theorem checkPattern_eq_ok {A : Csc α} (hA : A.WellFormed) (hsq : A.nrows = A.ncols)
    (hup : A.IsUpperTriangular) (hdiag : A.HasDiagonal) : checkPattern A = .ok (.ok ()) := by
  have hall : A.columnIndices.allM (fun j => do return (← A.columnRows j).contains j) =
      .ok ((List.range A.ncols).all fun j => (storedRows A j).contains j) := by
    rw [hA.columnIndices_eq]
    refine allM_eq_ok fun j hj => ?_
    rw [hA.columnRows_eq (List.mem_range.mp hj)]
    rfl
  have htrue : ((List.range A.ncols).all fun j => (storedRows A j).contains j) = true := by
    simp only [List.all_eq_true, List.mem_range, List.contains_iff_mem]
    exact fun j hj => (mem_storedRows_iff hj).mpr (hdiag j hj)
  rw [checkPattern, if_neg (not_not.mpr hsq), (isUpper_eq_true_iff hA).mpr hup, ok_bind, hall,
    htrue]
  rfl

/-! ## The analysis -/

/-- Running totals from zero on. -/
def totals (l : List ℕ) : Array ℕ :=
  l.foldl (fun starts c => starts.push (starts.back?.getD 0 + c)) #[0]

theorem totals_append (l : List ℕ) (c : ℕ) :
    totals (l ++ [c]) = (totals l).push ((totals l).back?.getD 0 + c) := by
  rw [totals, List.foldl_append]
  rfl

theorem size_totals (l : List ℕ) : (totals l).size = l.length + 1 := by
  induction l using List.reverseRecOn with
  | nil => rfl
  | append_singleton l c ih => rw [totals_append, Array.size_push, ih, List.length_append]; rfl

theorem getD_push_of_lt {starts : Array ℕ} {j : ℕ} (hj : j < starts.size) (v : ℕ) :
    (starts.push v).getD j 0 = starts.getD j 0 := by
  rw [getD_of_lt 0 (by simp; omega), getD_of_lt 0 hj, Array.getElem_push_lt]

theorem getD_push_size (starts : Array ℕ) (v : ℕ) : (starts.push v).getD starts.size 0 = v := by
  rw [getD_of_lt 0 (by simp), Array.getElem_push_eq]

/-- The last total. -/
theorem back_totals (l : List ℕ) : (totals l).back?.getD 0 = (totals l).getD l.length 0 := by
  have hsize := size_totals l
  rw [Array.back?_eq_getElem?, hsize, Nat.add_sub_cancel]
  simp

theorem getD_totals_zero (l : List ℕ) : (totals l).getD 0 0 = 0 := by
  induction l using List.reverseRecOn with
  | nil => rfl
  | append_singleton l c ih => rw [totals_append, getD_push_of_lt (by simp [size_totals]), ih]

/-- Each total is the one before and one number more. -/
theorem getD_totals_succ {l : List ℕ} {j : ℕ} (hj : j < l.length) :
    (totals l).getD (j + 1) 0 = (totals l).getD j 0 + l.getD j 0 := by
  induction l using List.reverseRecOn with
  | nil => simp at hj
  | append_singleton l c ih =>
    have hsize := size_totals l
    rw [List.length_append, List.length_singleton] at hj
    rw [totals_append, getD_push_of_lt (j := j) (by omega)]
    rcases Nat.lt_or_ge j l.length with hlt | hge
    · rw [getD_push_of_lt (by omega), ih hlt]
      simp [List.getElem?_append_left hlt]
    · obtain rfl : j = l.length := by omega
      rw [← hsize, getD_push_size, back_totals]
      simp

theorem layout_of_counts {rows : ℕ → List ℕ} {n : ℕ} {counts : Array ℕ} (hsize : counts.size = n)
    (hcounts : ∀ j < n, counts.getD j 0 = (fillRows rows n j).length) :
    Layout rows n (totals counts.toList) := by
  refine ⟨by rw [size_totals, Array.length_toList, hsize], getD_totals_zero _, fun j hj => ?_⟩
  rw [← hcounts j hj, getD_totals_succ (by simpa [hsize] using hj)]
  simp

/-- **`f` is the analysis of `A`,** and its entries are those of `A`. -/
structure Analyses (A : Csc α) (inv : Array ℕ) (f : Ldl α) : Prop where
  wellFormed : A.WellFormed
  square : A.nrows = A.ncols
  inverts : Inverts A.ncols f.perm inv
  upper_eq : f.upper = A.permuted inv
  landing_eq : f.landing = Csc.landings A.rowIndex.size (A.origins inv)
  analysed : Analysed f.upper f.parent f.colStart
  fits : f.pivots.Fits A.ncols (f.colStart.getD A.ncols 0)

variable {A : Csc α} {inv : Array ℕ} {f : Ldl α}

theorem Analyses.ncols_upper (h : Analyses A inv f) : f.upper.ncols = A.ncols := by
  rw [h.upper_eq, Csc.ncols_permuted rfl]

/-- Numbers do not matter to an analysis, as long as they fit. -/
theorem Analyses.with_pivots (h : Analyses A inv f) {w : Pivots α} (positive : ℕ)
    (hw : w.Fits A.ncols (f.colStart.getD A.ncols 0)) :
    Analyses A inv { f with pivots := w, positive := positive } :=
  ⟨h.wellFormed, h.square, h.inverts, h.upper_eq, h.landing_eq, h.analysed, hw⟩

/-! ## Writing entries -/

/-- The input with values replaced, one after the other. -/
def overwrite (A : Csc α) (changes : List (ℕ × α)) : Csc α :=
  changes.foldl (fun A c => A.setValue c.1 c.2) A

theorem overwrite_append (A : Csc α) (changes : List (ℕ × α)) (c : ℕ × α) :
    overwrite A (changes ++ [c]) = (overwrite A changes).setValue c.1 c.2 := by
  rw [overwrite, List.foldl_append]
  rfl

theorem samePattern_overwrite (A : Csc α) (changes : List (ℕ × α)) :
    Csc.SamePattern A (overwrite A changes) := by
  induction changes generalizing A with
  | nil => exact ⟨rfl, rfl, rfl, rfl, rfl⟩
  | cons c changes ih =>
    obtain ⟨h1, h2, h3, h4, h5⟩ := ih (A.setValue c.1 c.2)
    have hset := Csc.samePattern_setValue A c.1 c.2
    exact ⟨h1, h2, h3, h4, h5.trans hset.size_value⟩

/-- One more entry of the input lands in the rearranged matrix. -/
theorem writeEntry_eq_ok (h : Analyses A inv f) (before : List (ℕ × α)) {p : ℕ} (v : α)
    (hp : p < A.rowIndex.size) :
    (do write ((overwrite A before).permuted inv).value (← read f.landing p) v : Checked _) =
      .ok ((overwrite A (before ++ [(p, v)])).permuted inv).value := by
  have hland : f.landing.size = A.rowIndex.size := by rw [h.landing_eq, Csc.size_landings]
  have hsame := samePattern_overwrite A before
  have hwf := hsame.wellFormed h.wellFormed
  have hsq : (overwrite A before).nrows = A.ncols := by rw [hsame.nrows_eq, h.square]
  have hp' : p < (overwrite A before).rowIndex.size := by rwa [hsame.rowIndex_eq]
  have hset := Csc.permuted_setValue hwf hsq hsame.ncols_eq h.inverts hp' v
  have hlt := Csc.landing_lt hwf hsq hsame.ncols_eq h.inverts hp'
  rw [hsame.origins_eq h.wellFormed, hsame.rowIndex_eq, ← h.landing_eq] at hset hlt
  rw [read_eq_ok_getD 0 (by omega), ok_bind, write_eq_ok_setIfInBounds hlt, overwrite_append, hset]
  rfl

/-- An analysis stays one when all values are those of a changed input. -/
theorem Analyses.overwrite (h : Analyses A inv f) (changes : List (ℕ × α)) :
    Analyses (overwrite A changes) inv { f with
      upper := { f.upper with value := ((overwrite A changes).permuted inv).value } } := by
  have hsame := samePattern_overwrite A changes
  have hperm : Csc.SamePattern (A.permuted inv) ((Ldl.overwrite A changes).permuted inv) :=
    hsame.permuted h.wellFormed
  have hupper : { f.upper with value := ((Ldl.overwrite A changes).permuted inv).value } =
      (Ldl.overwrite A changes).permuted inv := by
    rw [h.upper_eq]
    exact hperm.eq_of_value
  refine ⟨hsame.wellFormed h.wellFormed, ?_, ?_, hupper, ?_, ?_, ?_⟩
  · rw [hsame.nrows_eq, hsame.ncols_eq, h.square]
  · rw [hsame.ncols_eq]
    exact h.inverts
  · rw [hsame.rowIndex_eq, hsame.origins_eq h.wellFormed]
    exact h.landing_eq
  · rw [hupper]
    refine h.analysed.congr ?_
    rw [h.upper_eq]
    exact hperm
  · rw [hsame.ncols_eq]
    exact h.fits

/-- **Overwriting entries of the input** keeps the analysis, now that of the
changed input. -/
theorem setEntries_ensures (h : Analyses A inv f) {positions : Array ℕ} {values : Array α}
    (hsize : positions.size = values.size) (hpos : ∀ p ∈ positions, p < A.rowIndex.size) :
    Ensures (f.setEntries positions values) fun f' =>
      Analyses (Ldl.overwrite A (positions.toList.zip values.toList)) inv f' ∧
        f'.perm = f.perm := by
  -- after each entry the values are those of the input overwritten so far
  have hloop := ensures_foldlM (l := positions.toList.zip values.toList) (s := f.upper.value)
    (f := fun value (c : ℕ × α) => do write value (← read f.landing c.1) c.2)
    (I := fun before value => value = ((Ldl.overwrite A before).permuted inv).value)
    (by rw [h.upper_eq]; rfl)
    (by
      rintro before ⟨p, v⟩ after value hsplit rfl
      have hmem : (p, v) ∈ positions.toList.zip values.toList := by
        rw [hsplit]
        simp
      have hp : p < A.rowIndex.size := hpos p (by simpa using (List.of_mem_zip hmem).1)
      exact .of_eq (writeEntry_eq_ok h before v hp) rfl)
  rw [setEntries, require_eq_ok hsize, ok_bind]
  refine hloop.bind ?_
  rintro value rfl
  exact .ok ⟨h.overwrite _, rfl⟩

/-- Zero columns need no order. -/
theorem choose_given {perm : Array ℕ} (h : IsOrder A.ncols perm) :
    (EliminationOrder.given perm).choose A = .ok perm := by
  rw [EliminationOrder.choose]
  split_ifs with hzero
  · have hsize : perm.size = 0 := by simpa [hzero] using h.length_eq
    rw [Array.eq_empty_of_size_eq_zero hsize]
    rfl
  · rfl

/-! ## Factoring -/

variable [Scalar α]

/-- **Every order can be analysed.** -/
theorem analyse_ensures (hA : A.WellFormed) (hsq : A.nrows = A.ncols) {perm : Array ℕ}
    (hperm : IsOrder A.ncols perm) :
    Ensures (analyse A perm) fun r => ∃ f inv, r = .ok f ∧ f.perm = perm ∧ Analyses A inv f := by
  obtain ⟨inv, hinv, hi⟩ := Permutation.inverse_ensures hperm
  have hw := Csc.wellFormed_permuted hA hsq rfl hi
  have hle : ∀ k, ∀ i ∈ storedRows (A.permuted inv) k, i ≤ k := Csc.storedRows_permuted_le rfl
  rw [analyse, hinv]
  dsimp only
  rw [Csc.permuteUpper_eq_ok hA hsq rfl hi]
  simp only [ok_bind]
  refine (eliminationTree_ensures hw hle).bind ?_
  rintro ⟨parent, counts⟩ ⟨htree, hsize, hcounts⟩
  rw [Csc.ncols_permuted rfl] at htree hsize hcounts
  have htotals : counts.foldl (fun starts c => starts.push (starts.back?.getD 0 + c)) #[0] =
      totals counts.toList := (Array.foldl_toList _).symm
  have hlayout := layout_of_counts hsize hcounts
  have hroom := back_totals counts.toList
  rw [Array.length_toList, hsize] at hroom
  simp only [htotals]
  refine .ok ⟨_, inv, rfl, rfl, hA, hsq, hi, rfl, rfl, ?_, ?_⟩
  · refine ⟨hw, hle, ?_, ?_⟩
    · rw [Csc.ncols_permuted rfl]
      exact htree
    · rw [Csc.ncols_permuted rfl]
      exact hlayout
  · refine ⟨?_, ?_, by simp, by simp⟩
    · rw [← hroom]
      simp
    · rw [← hroom]
      simp

/-- **The factors are stored,** and their positive pivots counted. -/
structure Stored (f : Ldl α) : Prop where
  hold : f.pivots.Hold f.upper f.parent f.colStart
  positive_eq : f.positive =
    (List.range f.upper.ncols).countP fun j => Scalar.lt 0 (pivotAt f.upper f.parent j)
  pivot_ne : ∀ j < f.upper.ncols, Scalar.eq (pivotAt f.upper f.parent j) 0 = false

/-- Pivot `k` is the first zero among those of `f`. -/
structure FirstZero (f : Ldl α) (k : ℕ) : Prop where
  lt : k < f.upper.ncols
  pivot_eq : Scalar.eq (pivotAt f.upper f.parent k) 0 = true
  pivot_ne : ∀ j < k, Scalar.eq (pivotAt f.upper f.parent j) 0 = false

/-- **How factoring again ends:** with all factors or at the first zero pivot. The
analysis stays. -/
structure Refactored (A : Csc α) (inv : Array ℕ) (f : Ldl α) (r : Ldl α × Except LdlError Unit) :
    Prop where
  numbers : ∃ w positive, r.1 = { f with pivots := w, positive := positive }
  analyses : Analyses A inv r.1
  ended : (r.2 = .ok () ∧ Stored r.1) ∨ ∃ k, r.2 = .error (.zeroPivot k) ∧ FirstZero r.1 k

omit [Scalar α] in
theorem Analyses.dim_eq (h : Analyses A inv f) : f.dim = A.ncols := h.fits.size_d

/-- **Factoring again answers in any scratch,** and leaves it fit for the next time. -/
theorem refactorIn_ensures (h : Analyses A inv f) {t : Scratch α} (ht : t.Fits f.dim) :
    Ensures (f.refactorIn t) fun r => Refactored A inv f (r.1, r.2.2) ∧ r.2.1.Fits f.dim := by
  have hn := h.ncols_upper
  have hfits : f.pivots.Fits f.upper.ncols (f.colStart.getD f.upper.ncols 0) := by
    rw [hn]
    exact h.fits
  rw [h.dim_eq, ← hn] at ht ⊢
  rw [refactorIn]
  refine (factoriseIn_ensures h.analysed hfits ht).bind ?_
  rintro ⟨w, t', outcome⟩ ⟨hout, ht'⟩
  have hw : w.Fits A.ncols (f.colStart.getD A.ncols 0) := by
    have := hout.fits
    rwa [hn] at this
  rcases hout.outcome with ⟨hok, hne, hhold⟩ | ⟨k, hk, herr, hzero, hne⟩
  · simp only at hok
    rw [hok]
    exact .ok ⟨⟨⟨_, _, rfl⟩, h.with_pivots _ hw, .inl ⟨rfl, hhold, rfl, hne⟩⟩, ht'⟩
  · simp only at herr
    rw [herr]
    exact .ok ⟨⟨⟨_, _, rfl⟩, h.with_pivots _ hw, .inr ⟨k, rfl, hk, hzero, hne⟩⟩, ht'⟩

/-- **Factoring again** ends with all factors or at the first zero pivot, and
does not touch the analysis. -/
theorem refactor_ensures (h : Analyses A inv f) :
    Ensures f.refactor (Refactored A inv f) := by
  rw [refactor]
  refine (refactorIn_ensures h (Scratch.fits_initial _)).bind ?_
  rintro ⟨f', t', outcome⟩ ⟨hr, -⟩
  exact .ok hr

/-- Before any number is computed, there is the analysis. -/
theorem prepare_eq (hA : A.WellFormed) (hsq : A.nrows = A.ncols) (hup : A.IsUpperTriangular)
    (hdiag : A.HasDiagonal) {order : EliminationOrder} {perm : Array ℕ}
    (hchoose : order.choose A = .ok perm) : prepare A order = analyse A perm := by
  rw [prepare, checkPattern_eq_ok hA hsq hup hdiag]
  simp only [ok_bind, hchoose]

/-- **Factoring** ends with all factors or at the first zero pivot. -/
theorem factor_ensures (hA : A.WellFormed) (hsq : A.nrows = A.ncols) (hup : A.IsUpperTriangular)
    (hdiag : A.HasDiagonal) {order : EliminationOrder} {perm : Array ℕ}
    (hchoose : order.choose A = .ok perm) (hperm : IsOrder A.ncols perm) :
    Ensures (factor A order) fun r => ∃ f inv, f.perm = perm ∧ Analyses A inv f ∧
      ((r = .ok f ∧ Stored f) ∨ ∃ k, r = .error (.zeroPivot k) ∧ FirstZero f k) := by
  rw [factor, prepare_eq hA hsq hup hdiag hchoose]
  refine (analyse_ensures hA hsq hperm).bind ?_
  rintro _ ⟨f, inv, rfl, hfperm, hf⟩
  dsimp only
  refine (refactor_ensures hf).bind ?_
  rintro ⟨f', outcome⟩ ⟨⟨w, positive, hf'⟩, hana, hcase⟩
  simp only at hf' hcase hana
  have hperm' : f'.perm = perm := by rw [hf', ← hfperm]
  rcases hcase with ⟨hok, hstored⟩ | ⟨k, herr, hzero⟩
  · rw [hok]
    exact .ok ⟨f', inv, hperm', hana, .inl ⟨rfl, hstored⟩⟩
  · rw [herr]
    exact .ok ⟨f', inv, hperm', hana, .inr ⟨k, rfl, hzero⟩⟩

/-- What is analysed has an order. -/
theorem isOrder_of_analyse {perm : Array ℕ} (h : analyse A perm = .ok (.ok f)) :
    IsOrder A.ncols perm := by
  rw [analyse] at h
  cases hinv : Permutation.inverse perm A.ncols with
  | error e =>
    rw [hinv] at h
    cases h
  | ok inv => exact Permutation.isOrder_of_inverse hinv

/-- What is prepared is the analysis in some order. -/
theorem analyse_of_prepare {order : EliminationOrder} (h : prepare A order = .ok (.ok f)) :
    checkPattern A = .ok (.ok ()) ∧ ∃ perm, analyse A perm = .ok (.ok f) := by
  obtain ⟨pattern, hpattern, h⟩ := bind_eq_ok.mp h
  cases pattern with
  | error e => cases h
  | ok _ =>
    dsimp only at h
    cases hchoose : order.choose A with
    | error e =>
      rw [hchoose] at h
      cases h
    | ok perm =>
      rw [hchoose] at h
      exact ⟨hpattern, perm, h⟩

/-- What is factored was prepared. -/
theorem prepare_of_factor {order : EliminationOrder} (h : factor A order = .ok (.ok f)) :
    ∃ g, prepare A order = .ok (.ok g) ∧ g.refactor = .ok (f, .ok ()) := by
  obtain ⟨prepared, hprepare, h⟩ := bind_eq_ok.mp h
  cases prepared with
  | error e => cases h
  | ok g =>
    obtain ⟨⟨g', outcome⟩, hrefactor, h⟩ := bind_eq_ok.mp h
    cases outcome with
    | error e => cases h
    | ok _ =>
      cases h
      exact ⟨g, hprepare, hrefactor⟩

/-- **Factors that were found are those of the matrix,** wherever the order
came from. -/
theorem stored_of_factor (hA : A.WellFormed) (hsq : A.nrows = A.ncols) {order : EliminationOrder}
    (h : factor A order = .ok (.ok f)) : ∃ inv, Analyses A inv f ∧ Stored f := by
  obtain ⟨g, hprepare, hrefactor⟩ := prepare_of_factor h
  obtain ⟨-, perm, hanalyse⟩ := analyse_of_prepare hprepare
  obtain ⟨g₀, inv, hg₀, -, hana⟩ :=
    (analyse_ensures hA hsq (isOrder_of_analyse hanalyse)).of_eq_ok hanalyse
  cases hg₀
  obtain ⟨-, hf, hended⟩ := (refactor_ensures hana).of_eq_ok hrefactor
  rcases hended with ⟨-, hstored⟩ | ⟨k, hk, -⟩
  · exact ⟨inv, hf, hstored⟩
  · cases hk

end Ldl

end SplitQP
