import SplitQP.Proofs.Factor.Factorise
/-!
# What a factorisation passes through

`factoriseIn` answers what is left at its end. Its states on the way are
answers of its own steps: `RowStart` has those between two rows,
`gatherRow` the row with its pattern found (`factorRow_eq` puts the row
together from it), `Eliminates` those between two columns of a row, and
`Writes` says which slot a column of a row is written to. On an analysed
pattern all of them have a closed form; that of `Writes` is
`Writes.slot_eq`.
-/

namespace SplitQP

open Checked SplitQP.Dense TreeState

/-- The columns of a pattern, each before its parent. -/
def Pattern.columns (p : Pattern) : List ℕ := (p.stack.extract p.top p.stack.size).toList

/-- The path under way. -/
def Pattern.path (p : Pattern) : List ℕ := (p.stack.take p.len).toList

variable {α : Type} [Scalar α]

/-- A row of which nothing is taken in yet. -/
def Scratch.gathering (t : Scratch α) : Gathered α :=
  ⟨0, t.row, ⟨t.marked, t.stack, 0, t.stack.size⟩⟩

/-- Takes in the entries stored in column `k`. -/
def gatherRow (upper : Csc α) (parent : Array (Option ℕ)) (k : ℕ) (t : Scratch α) :
    Checked (Gathered α) := do
  (← upper.column k).foldlM (gatherEntry parent k) t.gathering

/-- The state a gathered row is eliminated from. -/
def RowState.withRow (s : RowState α) (g : Gathered α) : α × Scratch α × Pivots α :=
  (g.pivot, { s.scratch with
    marked := g.pattern.marked, stack := g.pattern.stack, row := g.row }, s.pivots)

variable (upper : Csc α) (parent : Array (Option ℕ)) (colStart : Array ℕ)

/-- **A row is gathered, and its columns are eliminated in their order.** -/
theorem factorRow_eq (s : RowState α) (k : ℕ) :
    factorRow upper parent colStart s k = (do
      let g ← gatherRow upper parent k s.scratch
      let (pivot, t, w) ← g.pattern.columns.foldlM (eliminateColumn colStart k) (s.withRow g)
      let w := { w with d := ← write w.d k pivot }
      if Scalar.eq pivot 0 then
        return (⟨t, w, s.positive⟩, false)
      else
        let w := { w with dinv := ← write w.dinv k (Scalar.recip pivot) }
        return (⟨t, w, if Scalar.lt 0 pivot then s.positive + 1 else s.positive⟩, true)) := by
  rw [factorRow, gatherRow]
  cases upper.column k with
  | error e => rfl
  | ok column => rfl

variable (w : Pivots α) (t : Scratch α)

/-- **Row `k` is computed from `s`,** in a factorisation that begins with the storage
`w` and the scratch `t`. -/
inductive RowStart : ℕ → RowState α → Prop
  | first {t' : Scratch α} : t.restart colStart w.d.size = .ok t' → RowStart 0 ⟨t', w, 0⟩
  | next {k : ℕ} {s s' : RowState α} : RowStart k s → k < w.d.size →
      factorRow upper parent colStart s k = .ok (s', true) → RowStart (k + 1) s'

/-- Row `k` comes to eliminate column `j`, in the state `x`. -/
def Eliminates (k j : ℕ) (x : α × Scratch α × Pivots α) : Prop :=
  ∃ s g before after, RowStart upper parent colStart w t k s ∧ k < w.d.size ∧
    gatherRow upper parent k s.scratch = .ok g ∧ g.pattern.columns = before ++ j :: after ∧
    before.foldlM (eliminateColumn colStart k) (s.withRow g) = .ok x

/-- **The entry of row `k` in column `j` goes to `slot`:** the place that is next in its
column when the column is eliminated. -/
def Writes (k j slot : ℕ) : Prop :=
  ∃ x, Eliminates upper parent colStart w t k j x ∧ x.2.1.next[j]? = some slot

variable {upper parent colStart w t} {k : ℕ} {s : RowState α}

theorem eq_setIfInBounds_of_write {β : Type} {xs ys : Array β} {i : ℕ} {x : β}
    (h : write xs i x = .ok ys) : ys = xs.setIfInBounds i x := by
  rw [write] at h
  split at h
  · rename_i hi
    cases h
    rw [Array.setIfInBounds, dif_pos hi]
  · cases h

/-- Eliminating a column writes one slot, and it is the next one of the column. -/
theorem eliminateColumn_writes {x x' : α × Scratch α × Pivots α} {j : ℕ}
    (h : eliminateColumn colStart k x j = .ok x') : ∃ slot entry, x.2.1.next[j]? = some slot ∧
      x'.2.2.rowIndex = x.2.2.rowIndex.setIfInBounds slot k ∧
      x'.2.2.value = x.2.2.value.setIfInBounds slot entry := by
  obtain ⟨pivot, t, w⟩ := x
  obtain ⟨y, -, h⟩ := bind_eq_ok.mp h
  obtain ⟨free, hfree, h⟩ := bind_eq_ok.mp h
  obtain ⟨first, -, h⟩ := bind_eq_ok.mp h
  obtain ⟨row, -, h⟩ := bind_eq_ok.mp h
  obtain ⟨dinv, -, h⟩ := bind_eq_ok.mp h
  obtain ⟨rowIndex, hrow, h⟩ := bind_eq_ok.mp h
  obtain ⟨value, hvalue, h⟩ := bind_eq_ok.mp h
  obtain ⟨marked, -, h⟩ := bind_eq_ok.mp h
  obtain ⟨next, -, h⟩ := bind_eq_ok.mp h
  obtain ⟨row', -, h⟩ := bind_eq_ok.mp h
  cases h
  obtain ⟨hlt, hget⟩ := lt_size_of_read 0 hfree
  refine ⟨free, y * dinv, ?_, eq_setIfInBounds_of_write hrow, eq_setIfInBounds_of_write hvalue⟩
  rw [Array.getElem?_eq_getElem hlt, ← getD_of_lt 0 hlt, hget]

/-- Rows are computed one after the other. -/
theorem RowStart.exists_of_le (h : RowStart upper parent colStart w t k s) {i : ℕ} (hi : i ≤ k) :
    ∃ s', RowStart upper parent colStart w t i s' := by
  induction h with
  | first hrestart =>
    obtain rfl : i = 0 := by omega
    exact ⟨_, .first hrestart⟩
  | @next k s s' hs hk hrow ih =>
    rcases Nat.lt_or_eq_of_le hi with hlt | rfl
    · exact ih (by omega)
    · exact ⟨s', hs.next hk hrow⟩

theorem RowStart.factorRows {count positive : ℕ} {s' : RowState α}
    (h : RowStart upper parent colStart w t k s) (hcount : k + count = w.d.size)
    (hrows : factorRows upper parent colStart count k s = .ok (s', .ok positive)) :
    RowStart upper parent colStart w t w.d.size s' := by
  induction count generalizing k s with
  | zero =>
    cases hrows
    rwa [← hcount]
  | succ count ih =>
    obtain ⟨⟨s₁, go⟩, hrow, hrows⟩ := bind_eq_ok.mp hrows
    cases go with
    | true => exact ih (h.next (by omega) hrow) (by omega) hrows
    | false => cases hrows

/-- **A factorisation that does not fail** comes past its last row. -/
theorem rowStart_of_factoriseIn {w' : Pivots α} {t' : Scratch α} {positive : ℕ}
    (h : factoriseIn upper parent colStart w t = .ok (w', t', .ok positive)) :
    ∃ s, RowStart upper parent colStart w t w.d.size s ∧ s.pivots = w' ∧ s.scratch = t' := by
  obtain ⟨t₀, hrestart, h⟩ := bind_eq_ok.mp h
  obtain ⟨⟨s, outcome⟩, hrows, h⟩ := bind_eq_ok.mp h
  cases h
  exact ⟨s, (RowStart.first hrestart).factorRows (by omega) hrows, rfl, rfl⟩

/-! ## On an analysed pattern -/

section Analysed

variable (ha : Analysed upper parent colStart)
  (hw : w.Fits upper.ncols (colStart.getD upper.ncols 0)) (ht : t.Fits upper.ncols)

include ha

theorem gatherRow_ensures (hk : k < upper.ncols) (h : Between upper parent colStart k s) :
    Ensures (gatherRow upper parent k s.scratch)
      (Gathered.Holds upper.ncols k parent (storedEntries upper k)) := by
  rw [gatherRow, ha.wellFormed.column_eq hk, ok_bind]
  refine gather_ensures ha.tree hk (fun e he => ?_) h.beginGather
  have hmem : e.1 ∈ storedRows upper k := List.mem_map_of_mem he
  exact ⟨ha.row_le k e.1 hmem, hmem⟩

/-- After some columns of a row, the others are still to come. -/
theorem eliminateColumns_ensures (hk : k < upper.ncols) {before after : List ℕ}
    (hpat : patternOf upper parent k = before ++ after) {x : α × Scratch α × Pivots α}
    (h : InRow upper parent colStart k [] (before ++ after) x) :
    Ensures (before.foldlM (eliminateColumn colStart k) x)
      (InRow upper parent colStart k before after) := by
  -- the columns still to come are what `before` has left, then all of `after`
  refine (ensures_foldlM (f := eliminateColumn colStart k)
    (I := fun pre x => ∀ post, before = pre ++ post →
      InRow upper parent colStart k pre (post ++ after) x) ?_ ?_).mono fun x' hx' => ?_
  · rintro post rfl
    exact h
  · rintro pre j post x' rfl hx'
    have hsplit : patternOf upper parent k = pre ++ j :: (post ++ after) := by simpa using hpat
    refine (eliminateColumn_ensures ha hk hsplit (by simpa using hx' _ rfl)).mono ?_
    intro x'' hx'' post' hpost'
    obtain rfl : post = post' := by simpa using hpost'
    exact hx''
  · simpa using hx' [] (by simp)

include hw ht

/-- **Between rows** scratch is clean and the earlier rows are stored. -/
theorem RowStart.between (h : RowStart upper parent colStart w t k s) :
    Between upper parent colStart k s := by
  induction h with
  | first hrestart => exact (between_zero ha hw ht).of_eq_ok hrestart
  | next _ hk hrow ih =>
    rw [hw.size_d] at hk
    exact ((factorRow_ensures ha hk ih).of_eq_ok hrow).between rfl

/-- A column is eliminated when those before it in the pattern are. -/
theorem Eliminates.inRow {j : ℕ} {x : α × Scratch α × Pivots α}
    (h : Eliminates upper parent colStart w t k j x) : k < upper.ncols ∧ ∃ before after,
      patternOf upper parent k = before ++ j :: after ∧
      InRow upper parent colStart k before (j :: after) x := by
  obtain ⟨s, g, before, after, hs, hk, hgather, hcolumns, hx⟩ := h
  rw [hw.size_d] at hk
  have hbetween := hs.between ha hw ht
  have hg := (gatherRow_ensures ha hk hbetween).of_eq_ok hgather
  have hpat : patternOf upper parent k = before ++ j :: after :=
    hg.pattern.extract_eq.symm.trans hcolumns
  have hrow := hbetween.beginRow hg
  rw [hpat] at hrow
  exact ⟨hk, before, after, hpat, (eliminateColumns_ensures ha hk hpat hrow).of_eq_ok hx⟩

/-- **The slot that is written** is the first one that the rows above leave free. -/
theorem Writes.slot_eq {j slot : ℕ} (h : Writes upper parent colStart w t k j slot) :
    k < upper.ncols ∧ Fill (storedRows upper) k j ∧
      slot = colStart.getD j 0 + (fillRows (storedRows upper) k j).length := by
  obtain ⟨x, hx, hslot⟩ := h
  obtain ⟨hk, before, after, hpat, hin⟩ := hx.inRow ha hw ht
  have hfill := (fill_of_split ha hk hpat).1
  obtain ⟨hlt, hget⟩ := Array.getElem?_eq_some_iff.mp hslot
  refine ⟨hk, hfill, ?_⟩
  rw [← hget, ← getD_of_lt 0 hlt, hin.next_eq j (hfill.lt.trans hk),
    filledDuring_of_split ha hk hpat]

/-- **Every entry of the fill is written,** as far as rows are computed. -/
theorem RowStart.writes (h : RowStart upper parent colStart w t k s) (hk : k < upper.ncols) {j : ℕ}
    (hfill : Fill (storedRows upper) k j) :
    Writes upper parent colStart w t k j
      (colStart.getD j 0 + (fillRows (storedRows upper) k j).length) := by
  have hbetween := h.between ha hw ht
  obtain ⟨g, hgather, hg⟩ := gatherRow_ensures ha hk hbetween
  have hmem : j ∈ patternOf upper parent k := (ha.mem_patternOf_iff hk.le).mpr hfill
  obtain ⟨before, after, hpat⟩ := List.append_of_mem hmem
  have hrow := hbetween.beginRow hg
  rw [hpat] at hrow
  obtain ⟨x, hx, hin⟩ := eliminateColumns_ensures ha hk hpat hrow
  refine ⟨x, ⟨s, g, before, after, h, by rw [hw.size_d]; exact hk, hgather,
    hg.pattern.extract_eq.trans hpat, hx⟩, ?_⟩
  have hjn := hfill.lt.trans hk
  have hlt : j < x.2.1.next.size := by rw [hin.size_next]; exact hjn
  rw [Array.getElem?_eq_getElem hlt, ← getD_of_lt 0 hlt, hin.next_eq j hjn,
    filledDuring_of_split ha hk hpat]

end Analysed

end SplitQP
