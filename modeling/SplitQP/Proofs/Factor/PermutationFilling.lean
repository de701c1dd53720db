import SplitQP.Proofs.Sparse.Canonical
import SplitQP.Proofs.Sparse.Places
import SplitQP.Proofs.Sparse.Triplets
import SplitQP.Proofs.Factor.Ldl
import SplitQP.Factor.PermutationFilling
/-!
# The symmetric permutation is faithful

`permuteInPlace` keeps row indices, values and landings in three arrays.
It fills them as storage is filled from coordinates, so an entry lands at
its place by the new columns (`permuteInPlace_eq`, `landings_eq`). Hence
landings are a rearrangement of the positions, find each entry where it
went, and keep the order of the input in each column (`Lands`).
`Permutation.inverse` answers on the rearrangements of `0, …, n - 1` alone,
and then the symmetric completion is rearranged
(`permuteUpper_of_checkFormat`).
-/

namespace SplitQP

open Checked SplitQP.Dense

variable {α : Type} {A : Csc α} {inv perm : Array ℕ} {n : ℕ}

namespace Csc

/-! ## Moved entries -/

/-- An entry at its new place. -/
def moved (inv : Array ℕ) (e : Entry α) : Entry α := ⟨newRow inv e, newCol inv e, e.value⟩

/-- The entries in the order of the input, each at its new place. -/
def movedEntries (A : Csc α) (inv : Array ℕ) : List (Entry α) := A.entryList.map (moved inv)

/-- The columns entries move to, in the order of the input. -/
def newCols (A : Csc α) (inv : Array ℕ) : List ℕ := A.entryList.map (newCol inv)

/-- Row and column entries move to, in the order of the input. -/
def newPlaces (A : Csc α) (inv : Array ℕ) : List (ℕ × ℕ) :=
  A.entryList.map fun e => (newRow inv e, newCol inv e)

theorem WellFormed.length_movedEntries (hA : A.WellFormed) (inv : Array ℕ) :
    (A.movedEntries inv).length = A.rowIndex.size := by
  rw [movedEntries, List.length_map, hA.length_entryList]

theorem map_col_movedEntries : (A.movedEntries inv).map (·.col) = A.newCols inv := by
  rw [movedEntries, List.map_map, newCols]
  rfl

theorem permuted_eq_filled :
    A.permuted inv = Filling.filled A.ncols A.ncols (A.movedEntries inv) := by
  rw [permuted, Filling.filled, Filling.items, movedEntries, List.map_map]
  rfl

/-- The entries at their new places, each with its position instead of its value. -/
def movedPositions (A : Csc α) (inv : Array ℕ) : List (Entry ℕ) :=
  A.entryList.zipIdx.map fun e => ⟨newRow inv e.1, newCol inv e.1, e.2⟩

theorem map_col_movedPositions : (A.movedPositions inv).map (·.col) = A.newCols inv := by
  rw [movedPositions, List.map_map, newCols, ← List.zipIdx_map_fst 0 A.entryList, List.map_map]
  simp [Function.comp_def]

/-- Origins stand in storage as values would. -/
theorem map_value_movedPositions (A : Csc α) (inv : Array ℕ) :
    (Filling.filled A.ncols A.ncols (A.movedPositions inv)).entryList.map (·.value) =
      A.origins inv := by
  rw [entryList, map_value_entriesOf, Filling.filled, cols_ofColumns, List.map_flatten,
    map_distribute, Filling.items, movedPositions, List.map_map, List.map_map]
  rfl

section Square

variable (hA : A.WellFormed) (hr : A.nrows = n) (hc : A.ncols = n) (hi : Inverts n perm inv)

include hA hr hc hi

theorem col_lt_of_mem_movedEntries {e : Entry α} (he : e ∈ A.movedEntries inv) :
    e.col < A.ncols := by
  obtain ⟨e', he', rfl⟩ := List.mem_map.mp he
  exact hc ▸ newCol_lt hA hr hc hi he'

theorem row_lt_of_mem_movedEntries {e : Entry α} (he : e ∈ A.movedEntries inv) :
    e.row < A.ncols := by
  refine lt_of_le_of_lt ?_ (col_lt_of_mem_movedEntries hA hr hc hi he)
  obtain ⟨e', -, rfl⟩ := List.mem_map.mp he
  simp only [moved, newRow, newCol]
  omega

theorem col_lt_of_mem_movedPositions {e : Entry ℕ} (he : e ∈ A.movedPositions inv) :
    e.col < A.ncols := by
  have hmem : e.col ∈ A.newCols inv := by
    rw [← map_col_movedPositions]
    exact List.mem_map_of_mem he
  obtain ⟨e', he', heq⟩ := List.mem_map.mp hmem
  rw [← heq, hc]
  exact newCol_lt hA hr hc hi he'

/-! ## Landings are places -/

/-- The position at a place is that of the entry whose place it is. -/
theorem getElem?_origins {p : ℕ} (hp : p < A.rowIndex.size) :
    (A.origins inv)[Filling.placeOf (A.newCols inv) p]? = some p := by
  have hlen : p < A.entryList.length := by rwa [hA.length_entryList]
  have hget : (A.movedPositions inv)[p]? =
      some ⟨newRow inv A.entryList[p], newCol inv A.entryList[p], p⟩ := by
    simp [movedPositions, hlen]
  have hentry := Filling.getElem?_entryList_filled A.ncols
    (fun e he => col_lt_of_mem_movedPositions hA hr hc hi he) hget
  rw [← map_value_movedPositions, List.getElem?_map, ← map_col_movedPositions, hentry]
  rfl

/-- **An entry lands at its place** among the new columns. -/
theorem landings_eq : landings A.rowIndex.size (A.origins inv) =
    ((List.range A.rowIndex.size).map (Filling.placeOf (A.newCols inv))).toArray := by
  have hperm := origins_perm hA hr hc hi
  refine ext_getD 0 (size_landings _ _) (by simp) fun p hp => ?_
  rw [getD_landings (hperm.nodup_iff.mpr List.nodup_range)
    (fun q hq => List.mem_range.mp (hperm.mem_iff.mp hq)) (getElem?_origins hA hr hc hi hp)]
  simp [hp]

end Square

/-! ## Filling in place -/

/-- The entry that is put for position `p.2`. -/
def putAt [Zero α] (A : Csc α) (p : (ℕ × ℕ) × ℕ) : Entry α := ⟨p.1.1, p.1.2, A.value.getD p.2 0⟩

/-- A column and a row are read off the inverse for each entry. -/
theorem places_eq (hA : A.WellFormed) (hr : A.nrows = n) (hc : A.ncols = n)
    (hi : Inverts n perm inv) : A.places inv = .ok (A.newPlaces inv) := by
  rw [places, hA.entries_eq, ok_bind]
  refine mapM_eq_ok fun e he => ?_
  rw [read_eq_ok_getD 0 (by rw [hi.size_inv, ← hr]; exact hA.row_lt_of_mem he), ok_bind,
    read_eq_ok_getD 0 (by rw [hi.size_inv, ← hc]; exact col_lt_of_mem he)]
  rfl

section Filling

variable [Zero α]

/-- What is put are the entries at their new places. -/
theorem map_putAt (hA : A.WellFormed) (inv : Array ℕ) :
    (A.newPlaces inv).zipIdx.map (putAt A) = A.movedEntries inv := by
  apply List.ext_getElem
  · simp [newPlaces, movedEntries]
  · intro k h1 h2
    have hk : k < A.entryList.length := by simpa [newPlaces] using h1
    simp only [List.getElem_map, List.getElem_zipIdx, Nat.zero_add, newPlaces, movedEntries, putAt,
      moved, hA.getD_value 0 hk]

/-- One entry is put, and its landing is the position written. -/
theorem putMoved_eq_ok {s t : Filling α} {p : (ℕ × ℕ) × ℕ} (landing : Array ℕ)
    (hp : p.2 < A.value.size) (hland : p.2 < landing.size) (hput : s.put (A.putAt p) = .ok t) :
    ∃ position, t.written = s.written.push position ∧
      putMoved A (s, landing) p = .ok (t, landing.setIfInBounds p.2 position) := by
  obtain ⟨position, hread, hwritten⟩ := Filling.put_written hput
  refine ⟨position, hwritten, ?_⟩
  rw [putMoved]
  simp only [putAt] at hread hput ⊢
  rw [hread, ok_bind, read_eq_ok_getD 0 hp, ok_bind, hput, ok_bind,
    write_eq_ok_setIfInBounds hland, ok_bind, pure_eq_ok]

/-- **The landings are the positions written,** as far as entries are put. -/
theorem putMoved_run {places : List (ℕ × ℕ)} {s s' : Filling α} (landing : Array ℕ)
    (hroom : s.written.size + places.length ≤ landing.size) (hsize : landing.size = A.value.size)
    (hland : ∀ k < s.written.size, landing[k]? = s.written[k]?)
    (h : ((places.zipIdx s.written.size).map A.putAt).foldlM Filling.put s = .ok s') :
    ∃ landing', (places.zipIdx s.written.size).foldlM A.putMoved (s, landing) =
        .ok (s', landing') ∧ landing'.size = landing.size ∧
      ∀ k < s'.written.size, landing'[k]? = s'.written[k]? := by
  induction places generalizing s landing with
  | nil =>
    obtain rfl := Except.ok.inj h
    exact ⟨landing, rfl, rfl, hland⟩
  | cons p places ih =>
    rw [List.length_cons] at hroom
    rw [List.zipIdx_cons, List.map_cons, List.foldlM_cons] at h
    obtain ⟨t, hput, hrest⟩ := bind_eq_ok.mp h
    obtain ⟨position, hwritten, hstep⟩ :=
      putMoved_eq_ok landing (by dsimp only; omega) (by dsimp only; omega) hput
    dsimp only at hstep
    have hcount : t.written.size = s.written.size + 1 := by rw [hwritten, Array.size_push]
    have hland' : ∀ k < t.written.size,
        (landing.setIfInBounds s.written.size position)[k]? = t.written[k]? := by
      intro k hk
      rw [hwritten]
      rcases Nat.eq_or_lt_of_le (Nat.le_of_lt_succ (hcount ▸ hk)) with rfl | hlt
      · rw [Array.getElem?_push_size, Array.getElem?_setIfInBounds_self_of_lt (by omega)]
      · rw [Array.getElem?_push, if_neg hlt.ne, Array.getElem?_setIfInBounds_ne hlt.ne',
          hland k hlt]
    rw [← hcount] at hrest
    rw [List.zipIdx_cons, List.foldlM_cons, hstep, ok_bind, ← hcount]
    obtain ⟨landing', hrun, hsize', hlast⟩ := ih _ (by rw [Array.size_setIfInBounds]; omega)
      (by rwa [Array.size_setIfInBounds]) hland' hrest
    exact ⟨landing', hrun, by rw [hsize', Array.size_setIfInBounds], hlast⟩

section Square

variable (hA : A.WellFormed) (hr : A.nrows = n) (hc : A.ncols = n) (hi : Inverts n perm inv)

include hA hr hc hi

/-- **Cursors that begin at the starts** put all entries, and note where. -/
theorem putMoved_done {next : Array ℕ} (hnext : ∀ j < A.ncols, next[j]? =
      some ((Filling.filled A.ncols A.ncols (A.movedEntries inv)).start j)) :
    Ensures ((A.newPlaces inv).zipIdx.foldlM A.putMoved
      (.blank next A.rowIndex.size, Array.replicate A.rowIndex.size 0)) fun r =>
        Filling.Done A.ncols A.ncols (A.movedEntries inv) r.1 ∧
          r.2 = landings A.rowIndex.size (A.origins inv) := by
  have hcol := fun e => col_lt_of_mem_movedEntries hA hr hc hi (e := e)
  have hrow := fun e => row_lt_of_mem_movedEntries hA hr hc hi (e := e)
  have hlength := hA.length_movedEntries inv
  obtain ⟨s, hput, hs, -⟩ := Filling.run_done hcol hrow hnext
  rw [hlength, ← map_putAt hA] at hput
  obtain ⟨landing, hrun, hsize, hlanding⟩ := putMoved_run (Array.replicate A.rowIndex.size 0)
    (by simp [Filling.blank, newPlaces, hA.length_entryList]) (by simp [hA.size_value])
    (fun k hk => absurd hk (by simp [Filling.blank])) hput
  refine ⟨(s, landing), hrun, hs, ?_⟩
  have hwritten : s.written.toList =
      (List.range A.rowIndex.size).map (Filling.placeOf (A.newCols inv)) := by
    rw [hs.written_eq, Filling.destinations_filled _ hcol, hlength, map_col_movedEntries]
  have hcount : s.written.size = A.rowIndex.size := by
    rw [← Array.length_toList, hwritten, List.length_map, List.length_range]
  rw [Array.size_replicate] at hsize
  rw [landings_eq hA hr hc hi, ← hwritten]
  refine Array.ext (hsize.trans hcount.symm) fun k hk hk' => ?_
  have hget := hlanding k hk'
  rwa [Array.getElem?_eq_getElem hk, Array.getElem?_eq_getElem hk', Option.some_inj] at hget

/-- **Permuting in place** is permuting. -/
theorem permuteInPlace_eq : A.permuteInPlace inv = A.permuteUpper inv := by
  have hrow := fun e => row_lt_of_mem_movedEntries hA hr hc hi (e := e)
  have hones : ((A.newPlaces inv).map fun p => (p.2 + 1, 1)) =
      (A.movedEntries inv).map fun e => (e.col + 1, 1) := by
    rw [newPlaces, movedEntries, List.map_map, List.map_map]
    rfl
  obtain ⟨starts, hloops, rfl⟩ := Triplets.starts_ensures A.ncols
    fun e => col_lt_of_mem_movedEntries hA hr hc hi (e := e)
  obtain ⟨counts, hcounts, hstarts⟩ := bind_eq_ok.mp hloops
  obtain ⟨⟨s, landing⟩, hrun, hs, rfl⟩ := putMoved_done hA hr hc hi
    fun j hj => Filling.getElem?_starts_filled A.ncols hrow hj
  have hfields := (Filling.wellFormed_filled A.ncols hrow).ofFields_eq
  rw [Filling.ncols_filled] at hfields
  rw [permuteUpper_eq_ok hA hr hc hi, permuteInPlace, hA.nnz_eq, ok_bind, places_eq hA hr hc hi,
    ok_bind, hones, hcounts, ok_bind, hstarts, ok_bind, hrun, ok_bind]
  dsimp only at hs ⊢
  rw [hs.rowIndex_eq, hs.value_eq, permuted_eq_filled]
  change (ofFields (Filling.filled A.ncols A.ncols (A.movedEntries inv)).nrows _ _ _ _ >>= _) = _
  rw [hfields]
  rfl

end Square

end Filling

/-! ## Where entries land -/

/-- **`landing` says where the entries `es` went** among `fs`. -/
structure Lands (inv : Array ℕ) (es fs : List (Entry α)) (landing : Array ℕ) : Prop where
  length_eq : fs.length = es.length
  /-- Every position is landed at, none twice. -/
  perm_range : landing.toList.Perm (List.range es.length)
  /-- An entry stands where it landed, at its new place. -/
  moved_eq : ∀ (p : ℕ) e, es[p]? = some e → ∃ t : ℕ, landing[p]? = some t ∧
    fs[t]? = some (moved inv e)
  /-- Entries that move to one column keep their order. -/
  keeps_order : ∀ (p q : ℕ) e e', p < q → es[p]? = some e → es[q]? = some e' →
    newCol inv e = newCol inv e' → landing.getD p 0 < landing.getD q 0

/-- The symmetric completion of an upper triangle at `(i, j)`: what is stored there or at
the mirror image, duplicates summed in storage order. -/
def completion? [Add α] (A : Csc α) (i j : ℕ) : Checked (Option α) := A.entry? (min i j) (max i j)

/-- The values that entries hold at one place, in their order. -/
theorem map_value_column (entries : List (Entry α)) (i j : ℕ) :
    ((Filling.column entries j).filter (·.1 = i)).map (·.2) =
      (entries.filter fun e => e.row = i ∧ e.col = j).map (·.value) := by
  rw [Filling.column_eq_filter, List.filter_map, List.map_map, List.filter_filter]
  simp only [Function.comp_def, Bool.decide_and]

section Square

variable (hA : A.WellFormed) (hr : A.nrows = n) (hc : A.ncols = n) (hi : Inverts n perm inv)

include hA hr hc hi

theorem lands_landings : Lands inv A.entryList (A.permuted inv).entryList
    (landings A.rowIndex.size (A.origins inv)) := by
  have hcol := fun e => col_lt_of_mem_movedEntries hA hr hc hi (e := e)
  have hlength := hA.length_entryList
  have hland : ∀ p < A.entryList.length, (landings A.rowIndex.size (A.origins inv))[p]? =
      some (Filling.placeOf (A.newCols inv) p) := by
    intro p hp
    rw [landings_eq hA hr hc hi]
    simp [← hlength, hp]
  refine ⟨?_, ?_, fun p e he => ?_, fun p q e e' hpq he he' hnew => ?_⟩
  · have hw := wellFormed_permuted hA hr hc hi
    rw [hw.length_entryList, ← hw.size_value, size_value_permuted hA hr hc hi, hlength]
  · have hw := Filling.fits_filled A.ncols hcol
    have hperm := hw.destinations_perm (Filling.start_filled_last A.ncols hcol).le
    rw [Filling.destinations_filled _ hcol, map_col_movedEntries, hA.length_movedEntries] at hperm
    rwa [landings_eq hA hr hc hi, hlength]
  · have hp := (List.getElem?_eq_some_iff.mp he).1
    have hmoved : (A.movedEntries inv)[p]? = some (moved inv e) := by
      rw [movedEntries, List.getElem?_map, he, Option.map_some]
    refine ⟨_, hland p hp, ?_⟩
    rw [permuted_eq_filled, ← map_col_movedEntries]
    exact Filling.getElem?_entryList_filled A.ncols hcol hmoved
  · have hq := (List.getElem?_eq_some_iff.mp he').1
    have hnewCol : ∀ k f, A.entryList[k]? = some f → (A.newCols inv).getD k 0 = newCol inv f := by
      intro k f hk
      rw [newCols, List.getD_eq_getElem?_getD, List.getElem?_map, hk]
      rfl
    rw [Array.getD_eq_getD_getElem?, Array.getD_eq_getD_getElem?, hland p (hpq.trans hq),
      hland q hq]
    refine Filling.placeOf_lt_placeOf hpq (by rwa [newCols, List.length_map]) ?_
    rw [hnewCol p e he, hnewCol q e' he', hnew]

/-- An entry moves to the place of `(a, b)` from that of `(perm[a], perm[b])`. -/
theorem moved_place_iff {a b : ℕ} (ha : a < n) (hb : b < n) {e : Entry α} (he : e ∈ A.entryList)
    (hup : e.row ≤ e.col) : newRow inv e = min a b ∧ newCol inv e = max a b ↔
      e.row = min (perm.getD a 0) (perm.getD b 0) ∧
        e.col = max (perm.getD a 0) (perm.getD b 0) := by
  have hrow := hr ▸ hA.row_lt_of_mem he
  have hcol := hc ▸ col_lt_of_mem he
  have hrowa := hi.inv_eq_iff hrow ha
  have hrowb := hi.inv_eq_iff hrow hb
  have hcola := hi.inv_eq_iff hcol ha
  have hcolb := hi.inv_eq_iff hcol hb
  simp only [newRow, newCol]
  omega

/-- **The symmetric completion is rearranged.** -/
theorem completion?_permuted [Add α] (hup : A.IsUpperTriangular) {a b : ℕ} (ha : a < n)
    (hb : b < n) : ∃ held, (A.permuted inv).completion? a b = .ok held ∧
      A.completion? (perm.getD a 0) (perm.getD b 0) = .ok held := by
  have hpa := hi.perm_lt a ha
  have hpb := hi.perm_lt b hb
  have hvalues : (((A.permuted inv).cols.getD (max a b) []).filter (·.1 = min a b)).map (·.2) =
      ((A.cols.getD (max (perm.getD a 0) (perm.getD b 0)) []).filter
        (·.1 = min (perm.getD a 0) (perm.getD b 0))).map (·.2) := by
    rw [permuted_eq_filled, Filling.getD_cols_filled A.ncols (by omega),
      ← Filling.column_entryList, map_value_column, map_value_column, movedEntries,
      List.filter_map, List.map_map]
    refine congrArg (List.map _) (List.filter_congr fun e he => ?_)
    simp only [Function.comp_apply, moved]
    exact decide_eq_decide.mpr (moved_place_iff hA hr hc hi ha hb he (hup e he))
  refine ⟨valueAt (min (perm.getD a 0) (perm.getD b 0))
    (A.cols.getD (max (perm.getD a 0) (perm.getD b 0)) []), ?_, ?_⟩
  · rw [completion?, (wellFormed_permuted hA hr hc hi).entry?_eq, nrows_permuted hc,
      ncols_permuted hc, if_pos ⟨by omega, by omega⟩, valueAt, hvalues, valueAt]
  · rw [completion?, hA.entry?_eq, hr, hc, if_pos ⟨by omega, by omega⟩]

end Square

end Csc

/-! ## Orders that are refused -/

namespace Permutation

/-- There is one way to refuse a step. -/
theorem eq_of_placeAll_eq_error {l : List (ℕ × ℕ)} {steps : Array (Option ℕ)} {err : LdlError}
    (h : l.foldlM place steps = .error err) : err = .invalidPermutation := by
  induction l generalizing steps with
  | nil => cases h
  | cons p l ih =>
    rw [List.foldlM_cons] at h
    cases hp : place steps p with
    | ok steps' =>
      rw [hp] at h
      exact ih h
    | error err' =>
      rw [hp] at h
      obtain rfl := Except.error.inj h
      rw [place] at hp
      split at hp
      · cases hp
      · exact (Except.error.inj hp).symm

/-- **What is no rearrangement is refused.** -/
theorem inverse_eq_error (h : ¬ IsOrder n perm) :
    inverse perm n = .error .invalidPermutation := by
  cases hinv : inverse perm n with
  | ok inv => exact absurd (isOrder_of_inverse hinv) h
  | error err =>
    rw [inverse] at hinv
    split_ifs at hinv with hsize
    · cases hplace : perm.toList.zipIdx.foldlM place (Array.replicate n none) with
      | ok steps =>
        rw [hplace] at hinv
        cases hinv
      | error err' =>
        rw [hplace] at hinv
        obtain rfl := Except.error.inj hinv
        rw [eq_of_placeAll_eq_error hplace]
    · exact congrArg _ (Except.error.inj hinv).symm

end Permutation

/-! ## The permutation -/

namespace Csc

/-- **`B` is `A` permuted:** an upper triangle whose symmetric completion is that of `A`
with rows and columns rearranged, and whose entries are those of `A` where they landed. -/
structure IsPermuted [Add α] (A B : Csc α) (perm inv landing : Array ℕ) : Prop where
  checkFormat_eq : B.checkFormat = .ok ()
  isUpper_eq : B.isUpper = .ok true
  nrows_eq : B.nrows = A.ncols
  ncols_eq : B.ncols = A.ncols
  /-- As many entries as before, each with a landing. -/
  nnz_eq : A.nnz = .ok landing.size ∧ B.nnz = .ok landing.size
  completion_eq : ∀ a < A.ncols, ∀ b < A.ncols, ∃ held, B.completion? a b = .ok held ∧
    A.completion? (perm.getD a 0) (perm.getD b 0) = .ok held
  lands : ∃ es fs, A.entries = .ok es ∧ B.entries = .ok fs ∧ Lands inv es fs landing
  /-- Writing an entry where it landed is writing it before. -/
  write_eq : ∀ (p t : ℕ) v, landing[p]? = some t →
    (A.setValue p v).permuteUpper inv = .ok (B.setValue t v, landing)

theorem isPermuted_permuted [Add α] (hA : A.WellFormed) (hr : A.nrows = n) (hc : A.ncols = n)
    (hi : Inverts n perm inv) (hup : A.IsUpperTriangular) :
    IsPermuted A (A.permuted inv) perm inv (landings A.rowIndex.size (A.origins inv)) where
  checkFormat_eq := checkFormat_eq_ok_iff.mpr (wellFormed_permuted hA hr hc hi)
  isUpper_eq := by
    rw [Ldl.isUpper_eq (wellFormed_permuted hA hr hc hi), Except.ok.injEq]
    simp only [List.all_eq_true, decide_eq_true_eq]
    exact fun k _ => storedRows_permuted_le hc k
  nrows_eq := rfl
  ncols_eq := (ncols_permuted hc).trans hc.symm
  nnz_eq := by
    have hw := wellFormed_permuted hA hr hc hi
    rw [hA.nnz_eq, hw.nnz_eq, ← hw.size_value, size_value_permuted hA hr hc hi, size_landings]
    exact ⟨rfl, rfl⟩
  completion_eq a ha b hb := completion?_permuted hA hr hc hi hup (hc ▸ ha) (hc ▸ hb)
  lands := ⟨_, _, hA.entries_eq, (wellFormed_permuted hA hr hc hi).entries_eq,
    lands_landings hA hr hc hi⟩
  write_eq p t v ht := by
    obtain ⟨hlt, hget⟩ := Array.getElem?_eq_some_iff.mp ht
    have hp : p < A.rowIndex.size := by rwa [size_landings] at hlt
    have hsame := samePattern_setValue A p v
    rw [permuteUpper_eq_ok (hsame.wellFormed hA) hr hc hi, permuted_setValue hA hr hc hi hp,
      hsame.origins_eq hA, getD_of_lt 0 hlt, hget]
    rfl

/-- **The symmetric permutation is faithful.** A permutation vector has an inverse
exactly if it is a rearrangement of `0, …, n - 1`, and then they undo each other.
Permuting a square upper triangle in valid format, its entries in any order and any number
of them in one place, gives an upper triangle in valid format with the symmetric completion
rearranged, and landings that keep indices and values together. -/
theorem permuteUpper_of_checkFormat [Zero α] [Add α] (hformat : A.checkFormat = .ok ())
    (hsq : A.nrows = A.ncols) (hupper : A.isUpper = .ok true) (perm : Array ℕ) :
    ((∃ inv, Permutation.inverse perm A.ncols = .ok inv) ↔ IsOrder A.ncols perm) ∧
      (¬ IsOrder A.ncols perm →
        Permutation.inverse perm A.ncols = .error .invalidPermutation) ∧
      ∀ inv, Permutation.inverse perm A.ncols = .ok inv →
        Inverts A.ncols perm inv ∧ ∃ B landing, A.permuteUpper inv = .ok (B, landing) ∧
          A.permuteInPlace inv = .ok (B, landing) ∧ IsPermuted A B perm inv landing := by
  have hA := checkFormat_eq_ok_iff.mp hformat
  have hup := (Ldl.isUpper_eq_true_iff hA).mp hupper
  refine ⟨⟨fun ⟨inv, hinv⟩ => Permutation.isOrder_of_inverse hinv, fun h => ?_⟩,
    Permutation.inverse_eq_error, fun inv hinv => ?_⟩
  · obtain ⟨inv, hinv, -⟩ := Permutation.inverse_ensures h
    exact ⟨inv, hinv⟩
  · have hi : Inverts A.ncols perm inv :=
      (Permutation.inverse_ensures (Permutation.isOrder_of_inverse hinv)).of_eq_ok hinv
    have hanswer := permuteUpper_eq_ok hA hsq rfl hi
    exact ⟨hi, _, _, hanswer, (permuteInPlace_eq hA hsq rfl hi).trans hanswer,
      isPermuted_permuted hA hsq rfl hi hup⟩

/-- Rows out of order, and two entries in one place. -/
def jumbled : Csc ℤ := ⟨3, 3, #[0, 1, 3, 7], #[0, 1, 0, 2, 0, 1, 0], #[4, 5, -1, 6, 1, -2, 1]⟩

theorem permuteUpper_of_checkFormat_jumbled : jumbled.checkFormat = .ok () ∧
    jumbled.nrows = jumbled.ncols ∧ jumbled.isUpper = .ok true ∧
    Permutation.inverse #[0, 1, 1] 3 = .error .invalidPermutation ∧
    Permutation.inverse #[2, 0, 1] 3 = .ok #[1, 2, 0] ∧ Inverts 3 #[2, 0, 1] #[1, 2, 0] ∧
    ∃ B, jumbled.permuteInPlace #[1, 2, 0] = .ok (B, #[1, 4, 5, 0, 2, 6, 3]) ∧
      B.rowIndex = #[0, 1, 0, 0, 2, 1, 0] ∧ B.value = #[6, 4, 1, 1, 5, -1, -2] ∧
      IsPermuted jumbled B #[2, 0, 1] #[1, 2, 0] #[1, 4, 5, 0, 2, 6, 3] := by
  have hformat : jumbled.checkFormat = .ok () := by decide +kernel
  have hupper : jumbled.isUpper = .ok true := by decide +kernel
  have hinv : Permutation.inverse #[2, 0, 1] 3 = .ok #[1, 2, 0] := by decide +kernel
  have hfields : (jumbled.permuteUpper #[1, 2, 0]).map (fun r => (r.1.rowIndex, r.1.value, r.2)) =
      .ok (#[0, 1, 0, 0, 2, 1, 0], #[6, 4, 1, 1, 5, -1, -2], #[1, 4, 5, 0, 2, 6, 3]) := by
    decide +kernel
  have hrefused := (permuteUpper_of_checkFormat hformat rfl hupper #[0, 1, 1]).2.1 (by decide)
  obtain ⟨-, -, haccepted⟩ := permuteUpper_of_checkFormat hformat rfl hupper #[2, 0, 1]
  obtain ⟨hi, B, landing, hanswer, hplace, hperm⟩ := haccepted #[1, 2, 0] hinv
  rw [hanswer] at hfields
  simp only [Except.map, Except.ok.injEq, Prod.mk.injEq] at hfields
  obtain ⟨hrow, hvalue, rfl⟩ := hfields
  exact ⟨hformat, rfl, hupper, hrefused, hinv, hi, B, hplace, hrow, hvalue, hperm⟩

end Csc

end SplitQP
