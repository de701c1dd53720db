import SplitQP.Proofs.Sparse.Build
import SplitQP.Proofs.Sparse.Dropped
import SplitQP.Call.Coordinates
/-!
# Matrices of a call have room

Coordinates that pass the checks become a well-formed matrix of the size
asked for (`Triplets.toCsc_eq_ok_iff`, `Triplets.built_of_toCsc`), with no
more entries than there is room for; and dropping small entries from it
answers and keeps all that (`Coordinates.toCsc_ensures`).
-/

namespace SplitQP

open Checked SplitQP.Dense

variable {α : Type}

/-- **A matrix of the size asked for,** with room for its entries. -/
structure Csc.Built (nrows ncols : ℕ) (A : Csc α) : Prop where
  nrows_eq : A.nrows = nrows
  ncols_eq : A.ncols = ncols
  room : A.rowIndex.size ≤ maxEntries

namespace Triplets

theorem inRange_eq_true_iff {i : ℤ} {bound : ℕ} : inRange i bound = true ↔ 0 ≤ i ∧ i < bound := by
  rw [inRange, Bool.and_eq_true, decide_eq_true_iff, decide_eq_true_iff]

/-- No entry is reported exactly where all are inside. -/
theorem firstOutside_eq_none_iff {nrows ncols k : ℕ} {l : List (ℤ × ℤ × α)} :
    firstOutside nrows ncols k l = none ↔
      ∀ e ∈ l, inRange e.1 nrows = true ∧ inRange e.2.1 ncols = true := by
  induction l generalizing k with
  | nil => exact iff_of_true rfl (List.forall_mem_nil _)
  | cons e l ih =>
    obtain ⟨row, col, v⟩ := e
    rw [firstOutside, List.forall_mem_cons, ← Bool.and_eq_true_iff]
    by_cases hin : (inRange row nrows && inRange col ncols) = true
    · rw [if_pos hin, ih, and_iff_right hin]
    · rw [if_neg hin]
      exact iff_of_false (Option.some_ne_none _) fun h => hin h.1

/-- **Which coordinates become a matrix,** and which one. -/
theorem toCsc_eq_ok_iff {t : Triplets α} {A : Csc α} : t.toCsc = .ok A ↔
    (∀ e ∈ t.toList, inRange e.1 t.nrows = true ∧ inRange e.2.1 t.ncols = true) ∧
      t.ncols < maxEntries ∧ t.nnz ≤ maxEntries ∧
        Csc.ofColumns t.nrows (Csc.distribute t.ncols (t.toList.map numbered)) = A := by
  have hbounds : t.checkBounds = .ok () ↔ firstOutside t.nrows t.ncols 0 t.toList = none := by
    rw [checkBounds]
    cases firstOutside t.nrows t.ncols 0 t.toList with
    | none => exact iff_of_true rfl rfl
    | some e => exact iff_of_false nofun nofun
  have hroom : Csc.checkRoom t.ncols t.nnz = .ok () ↔
      t.ncols < maxEntries ∧ t.nnz ≤ maxEntries := by
    unfold Csc.checkRoom
    simp only [throw_eq_error, error_bind, pure_eq_ok]
    split_ifs <;> simp [*]
  rw [toCsc, bind_eq_ok, ← firstOutside_eq_none_iff (k := 0), ← hbounds]
  constructor
  · rintro ⟨_, hinside, h⟩
    obtain ⟨_, hfits, h⟩ := bind_eq_ok.mp h
    obtain ⟨hcols, hnnz⟩ := hroom.mp hfits
    exact ⟨hinside, hcols, hnnz, Except.ok.inj h⟩
  · rintro ⟨hinside, hcols, hnnz, rfl⟩
    refine ⟨(), hinside, ?_⟩
    rw [hroom.mpr ⟨hcols, hnnz⟩]
    rfl

/-- **What coordinates are turned into.** -/
theorem built_of_toCsc {t : Triplets α} {A : Csc α} (h : t.toCsc = .ok A) :
    A.WellFormed ∧ A.Built t.nrows t.ncols := by
  obtain ⟨hin, -, hcount, rfl⟩ := toCsc_eq_ok_iff.mp h
  have hcol : ∀ x ∈ t.toList.map numbered, x.1 < t.ncols := by
    intro x hx
    obtain ⟨e, he, rfl⟩ := List.mem_map.mp hx
    have := inRange_eq_true_iff.mp (hin e he).2
    rw [numbered]
    omega
  -- the columns hold the entries that were given, in another order
  have hperm := Csc.flatten_distribute_perm hcol
  refine ⟨Csc.wellFormed_ofColumns fun col hcol' e he => ?_, ?_⟩
  · have hmem := hperm.mem_iff.mp (List.mem_flatten_of_mem hcol' he)
    rw [List.map_map] at hmem
    obtain ⟨e', he', rfl⟩ := List.mem_map.mp hmem
    have := inRange_eq_true_iff.mp (hin e' he').1
    simp only [Function.comp_apply, numbered]
    omega
  · refine ⟨rfl, Csc.length_distribute _ _, ?_⟩
    have hlength : t.toList.length ≤ t.nnz := by
      rw [toList, List.length_zip, List.length_zip, nnz, ← Array.length_toList]
      omega
    have hsize : (Csc.ofColumns t.nrows
        (Csc.distribute t.ncols (t.toList.map numbered))).rowIndex.size = t.toList.length := by
      rw [Csc.ofColumns, List.size_toArray, List.length_map, hperm.length_eq, List.length_map,
        List.length_map]
    rw [hsize]
    exact hlength.trans hcount

end Triplets

namespace Coordinates

variable {c : Coordinates α} {matrix : String} {nrows ncols : ℕ} {A : Csc α}

/-- Coordinates become a matrix where their lengths fit and it can be built. -/
theorem toFullCsc_eq_ok_iff : c.toFullCsc matrix nrows ncols = .ok A ↔
    c.rows.size = c.vals.size ∧ c.cols.size = c.vals.size ∧
      Triplets.toCsc ⟨nrows, ncols, c.rows, c.cols, c.vals⟩ = .ok A := by
  have hlengths : c.checkLengths = .ok () ↔
      c.rows.size = c.vals.size ∧ c.cols.size = c.vals.size := by
    rw [checkLengths, bind_eq_ok, CallError.checkLength_eq_ok]
    exact ⟨fun ⟨_, hrows, hcols⟩ => ⟨CallError.checkLength_eq_ok.mp hrows, hcols⟩,
      fun ⟨hrows, hcols⟩ => ⟨(), CallError.checkLength_eq_ok.mpr hrows, hcols⟩⟩
  have hmapped : ∀ {r : Except SparseError (Csc α)} {f : SparseError → CallError},
      r.mapError f = .ok A ↔ r = .ok A := by
    intro r f
    cases r with
    | error e => exact iff_of_false nofun nofun
    | ok B => exact ⟨fun h => congrArg _ (Except.ok.inj h), fun h => congrArg _ (Except.ok.inj h)⟩
  rw [toFullCsc, bind_eq_ok, ← and_assoc, ← hlengths]
  constructor
  · rintro ⟨_, h, hA⟩
    exact ⟨h, hmapped.mp hA⟩
  · rintro ⟨h, hA⟩
    exact ⟨(), h, hmapped.mpr hA⟩

variable [Scalar α]

/-- **What coordinates are turned into:** the matrix of all of them, without small
entries, and the number of these. -/
theorem toCsc_eq (c : Coordinates α) (matrix : String) (nrows ncols : ℕ) :
    c.toCsc matrix nrows ncols = .ok ((c.toFullCsc matrix nrows ncols).map fun A =>
      (A.withoutSmall threshold, A.rowIndex.size - (A.withoutSmall threshold).rowIndex.size)) := by
  rw [toCsc]
  cases hfull : c.toFullCsc matrix nrows ncols with
  | error e => rfl
  | ok A =>
    have hwf := (Triplets.built_of_toCsc (toFullCsc_eq_ok_iff.mp hfull).2.2).1
    dsimp only
    rw [Csc.dropSmall_eq hwf, ok_bind]
    rfl

/-- **Coordinates are turned into a matrix with room,** or refused. -/
theorem toCsc_ensures (c : Coordinates α) (matrix : String) (nrows ncols : ℕ) :
    Ensures (c.toCsc matrix nrows ncols) fun r => ∀ A, r = .ok A → A.1.Built nrows ncols := by
  rw [toCsc_eq]
  refine .ok fun r hr => ?_
  cases hfull : c.toFullCsc matrix nrows ncols with
  | error e =>
    rw [hfull] at hr
    cases hr
  | ok A =>
    rw [hfull] at hr
    cases hr
    obtain ⟨hA, hbuilt⟩ := Triplets.built_of_toCsc (toFullCsc_eq_ok_iff.mp hfull).2.2
    exact ⟨hbuilt.nrows_eq, Csc.ncols_withoutSmall.trans hbuilt.ncols_eq,
      (Csc.size_withoutSmall_le hA threshold).trans hbuilt.room⟩

end Coordinates

end SplitQP
