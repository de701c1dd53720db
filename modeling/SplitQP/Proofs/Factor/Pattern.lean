import SplitQP.Proofs.Exact
import SplitQP.Proofs.Answers
import SplitQP.Proofs.Factor.Fill
import SplitQP.Factor.Numeric
/-!
# The pattern of a row

`treePath` and `rowPattern` are the traversal of the tree on lists: one
path, up to the first column already in the pattern, and all paths of a
row, each put in front of the pattern found before. `rowPattern` is
exactly the filled pattern (`mem_rowPattern_iff`), without repetitions,
and holds every column before its parent (`Upward`). The stack machine of
`Pattern` computes it (`Pattern.gather_ensures`): one array serves as two
stacks, which never meet, because their columns are distinct and below
the row.
-/

namespace SplitQP

open Checked SplitQP.Dense

/-! ## Paths on lists -/

/-- The path from column `i` towards the root, up to the first column in `taken`
or to the last column before `k`. -/
def treePath (parent : Array (Option ℕ)) (k : ℕ) (taken : List ℕ) : ℕ → ℕ → List ℕ
  | 0, _ => []
  | room + 1, i =>
    if i ∈ taken then []
    else i :: match parent.getD i none with
      | none => []
      | some p => if p < k then treePath parent k taken room p else []

/-- One more stored row of column `k`. -/
def extendPattern (parent : Array (Option ℕ)) (k : ℕ) (pat : List ℕ) (i : ℕ) : List ℕ :=
  if i = k then pat else treePath parent k pat parent.size i ++ pat

/-- **The pattern of row `k`,** from the rows stored in column `k`. -/
def rowPattern (parent : Array (Option ℕ)) (k : ℕ) (stored : List ℕ) : List ℕ :=
  stored.foldl (extendPattern parent k) []

/-- Every column comes before its parent, as far as that is below `k`. -/
def Upward (rows : ℕ → List ℕ) (k : ℕ) : List ℕ → Prop
  | [] => True
  | i :: rest => (∀ p, IsParent rows i p → p < k → p ∈ rest) ∧ Upward rows k rest

variable {rows : ℕ → List ℕ} {parent : Array (Option ℕ)} {n k : ℕ} {pat : List ℕ}

theorem Upward.closed (h : Upward rows k pat) :
    ∀ a ∈ pat, ∀ p, IsParent rows a p → p < k → p ∈ pat := by
  induction pat with
  | nil => simp
  | cons i rest ih =>
    intro a ha p hp hpk
    rcases List.mem_cons.mp ha with rfl | ha
    · exact List.mem_cons_of_mem _ (h.1 p hp hpk)
    · exact List.mem_cons_of_mem _ (ih h.2 a ha p hp hpk)

theorem Upward.of_append {pre post : List ℕ} (h : Upward rows k (pre ++ post)) :
    Upward rows k post := by
  induction pre with
  | nil => exact h
  | cons i pre ih => exact ih h.2

/-- **Rows with an entry in a column come after it.** -/
theorem Upward.mem_of_fill {i j : ℕ} {post : List ℕ} (h : Upward rows k (i :: post))
    (hji : Fill rows j i) (hjk : j < k) : j ∈ post := by
  obtain ⟨p, hp, hpj⟩ := hji.exists_parent
  have hmem : p ∈ post := h.1 p hp (by omega)
  rcases Nat.eq_or_lt_of_le hpj with rfl | hlt
  · exact hmem
  · exact Fill.mem_of_climb (V := (· ∈ post)) h.2.closed (hji.up hp hlt) hmem hjk

/-- What a path adds to a pattern of row `k`. -/
structure IsPattern (rows : ℕ → List ℕ) (k : ℕ) (pat : List ℕ) : Prop where
  fill : ∀ j ∈ pat, Fill rows k j
  nodup : pat.Nodup
  upward : Upward rows k pat

theorem IsPattern.lt (h : IsPattern rows k pat) : ∀ j ∈ pat, j < k := fun j hj => (h.fill j hj).lt

/-- A row with an entry in a column of the pattern is in the pattern. -/
theorem IsPattern.mem_of_fill (h : IsPattern rows k pat) {i c : ℕ} (hc : c ∈ pat)
    (hf : Fill rows i c) (hik : i < k) : i ∈ pat := by
  obtain ⟨pre, post, rfl⟩ := List.append_of_mem hc
  exact List.mem_append_right _ (List.mem_cons_of_mem _ (h.upward.of_append.mem_of_fill hf hik))

/-- **What feeds into a column comes before it.** -/
theorem IsPattern.mem_pre_of_fill (h : IsPattern rows k pat) {pre post : List ℕ} {i c : ℕ}
    (hpat : pat = pre ++ i :: post) (hc : c ∈ pat) (hf : Fill rows i c) : c ∈ pre := by
  have hik : i < k := h.lt i (by rw [hpat]; simp)
  have hnd := h.nodup
  rw [hpat] at hc hnd
  rcases List.mem_append.mp hc with hpre | hrest
  · exact hpre
  · exfalso
    rcases List.mem_cons.mp hrest with rfl | hpost
    · exact lt_irrefl c hf.lt
    · obtain ⟨before, after, rfl⟩ := List.append_of_mem hpost
      have hup : Upward rows k ((pre ++ i :: before) ++ c :: after) := by
        have := h.upward
        rw [hpat] at this
        simpa using this
      have hmem := hup.of_append.mem_of_fill hf hik
      have := (List.nodup_cons.mp (List.nodup_append.mp hnd).2.1).1
      exact this (by simp [hmem])

/-- A column goes in front of a pattern that has its parent. -/
theorem IsPattern.cons (h : IsPattern rows k pat) {i : ℕ} (hi : Fill rows k i) (hmem : i ∉ pat)
    (hup : ∀ p, IsParent rows i p → p < k → p ∈ pat) : IsPattern rows k (i :: pat) := by
  refine ⟨fun j hj => ?_, List.nodup_cons.mpr ⟨hmem, h.nodup⟩, hup, h.upward⟩
  rcases List.mem_cons.mp hj with rfl | hj
  · exact hi
  · exact h.fill j hj

/-- **A path keeps a pattern a pattern,** and reaches its first column. -/
theorem IsPattern.treePath_append (ht : IsTree rows n parent) (hkn : k ≤ n)
    (h : IsPattern rows k pat) {room i : ℕ} (hi : Fill rows k i) (hroom : k - i ≤ room) :
    IsPattern rows k (treePath parent k pat room i ++ pat) ∧
      (i ∈ treePath parent k pat room i ++ pat) ∧ ∀ j ∈ treePath parent k pat room i, i ≤ j := by
  have hik := hi.lt
  induction room generalizing i with
  | zero => omega
  | succ room ih =>
    rw [treePath]
    by_cases hmem : i ∈ pat
    · rw [if_pos hmem]
      exact ⟨h, hmem, by simp⟩
    rw [if_neg hmem]
    -- the path ends at a root, goes on to a parent below `k`, or ends for reaching `k`
    cases hp : parent.getD i none with
    | none =>
      refine ⟨h.cons hi hmem fun p hpar _ => ?_, by simp, by simp⟩
      rw [(ht.parent_iff i (by omega) p).mpr hpar] at hp
      cases hp
    | some p =>
      have hpar := (ht.parent_iff i (by omega) p).mp hp
      have hip := hpar.lt
      by_cases hpk : p < k
      · obtain ⟨hpat, hpmem, hge⟩ := ih (hi.up hpar hpk) (by omega) hpk
        simp only [hpk, if_true]
        have hnot : i ∉ treePath parent k pat room p ++ pat := by
          rw [List.mem_append, not_or]
          exact ⟨fun hc => by have := hge i hc; omega, hmem⟩
        refine ⟨hpat.cons hi hnot fun p' hpar' _ => ?_, by simp, fun j hj => ?_⟩
        · rwa [hpar'.unique hpar]
        · rcases List.mem_cons.mp hj with rfl | hj
          · exact le_rfl
          · have := hge j hj
            omega
      · simp only [hpk, if_false]
        refine ⟨h.cons hi hmem fun p' hpar' hlt => ?_, by simp, by simp⟩
        rw [hpar'.unique hpar] at hlt
        exact absurd hlt hpk

theorem isPattern_foldl (ht : IsTree rows n parent) (hkn : k ≤ n) (stored : List ℕ)
    (hs : ∀ i ∈ stored, i ≤ k ∧ i ∈ rows k) (h : IsPattern rows k pat) :
    IsPattern rows k (stored.foldl (extendPattern parent k) pat) ∧
      (∀ j ∈ pat, j ∈ stored.foldl (extendPattern parent k) pat) ∧
      ∀ i ∈ stored, i < k → i ∈ stored.foldl (extendPattern parent k) pat := by
  induction stored generalizing pat with
  | nil => exact ⟨h, fun j hj => hj, by simp⟩
  | cons i stored ih =>
    obtain ⟨hik, himem⟩ := hs i (by simp)
    have hstep : IsPattern rows k (extendPattern parent k pat i) ∧
        (∀ j ∈ pat, j ∈ extendPattern parent k pat i) ∧
        (i < k → i ∈ extendPattern parent k pat i) := by
      rw [extendPattern]
      split
      · exact ⟨h, fun j hj => hj, by omega⟩
      · have hfill : Fill rows k i := .stored himem (by omega)
        have hroom : k - i ≤ parent.size := by
          rw [ht.size_eq]
          omega
        obtain ⟨h1, h2, -⟩ := h.treePath_append ht hkn hfill hroom
        exact ⟨h1, fun j hj => List.mem_append_right _ hj, fun _ => h2⟩
    obtain ⟨h1, h2, h3⟩ := ih (fun j hj => hs j (by simp [hj])) hstep.1
    rw [List.foldl_cons]
    refine ⟨h1, fun j hj => h2 j (hstep.2.1 j hj), fun j hj hjk => ?_⟩
    rcases List.mem_cons.mp hj with rfl | hj
    · exact h2 j (hstep.2.2 hjk)
    · exact h3 j hj hjk

section RowPattern

variable (ht : IsTree rows n parent) (hkn : k ≤ n) (hs : ∀ i ∈ rows k, i ≤ k)

include ht hkn hs

theorem isPattern_rowPattern : IsPattern rows k (rowPattern parent k (rows k)) :=
  (isPattern_foldl ht hkn (rows k) (fun i hi => ⟨hs i hi, hi⟩)
    ⟨by simp, List.nodup_nil, trivial⟩).1

/-- **The paths of a row are its filled pattern.** -/
theorem mem_rowPattern_iff {j : ℕ} : j ∈ rowPattern parent k (rows k) ↔ Fill rows k j := by
  have hnil : IsPattern rows k [] := ⟨by simp, List.nodup_nil, trivial⟩
  obtain ⟨hpat, -, hstored⟩ := isPattern_foldl ht hkn (rows k) (fun i hi => ⟨hs i hi, hi⟩) hnil
  constructor
  · exact hpat.fill j
  · exact fun h => h.mem_of_closed (V := (· ∈ rowPattern parent k (rows k))) hpat.upward.closed
      hstored

end RowPattern

/-! ## Paths on the stack -/

namespace Pattern

/-- **What the stack holds:** the current path from the bottom on, the pattern
from `top` on. -/
structure Holds (n k : ℕ) (path pat : List ℕ) (s : Pattern) : Prop where
  size_marked : s.marked.size = n
  size_stack : s.stack.size = n
  len_eq : s.len = path.length
  top_eq : s.top + pat.length = n
  bottom : ∀ t < path.length, s.stack[t]? = path[t]?
  upper : ∀ t < pat.length, s.stack[s.top + t]? = pat[t]?
  marked : ∀ j < n, s.marked.getD j false = true ↔ j ∈ path ++ pat
  nodup : (path ++ pat).Nodup
  lt : ∀ j ∈ path ++ pat, j < k

variable {path : List ℕ} {s : Pattern}

/-- The two stacks leave a place free. -/
theorem Holds.length_le (h : Holds n k path pat s) : path.length + pat.length ≤ k := by
  have hsub : path ++ pat ⊆ List.range k := fun j hj => List.mem_range.mpr (h.lt j hj)
  have := (h.nodup.subperm hsub).length_le
  simpa using this

/-- Where no path is under way, the rest of the stack is the pattern. -/
theorem Holds.extract_eq (h : Holds n k [] pat s) :
    (s.stack.extract s.top s.stack.size).toList = pat := by
  have htop := h.top_eq
  have hsize := h.size_stack
  apply List.ext_getElem?
  intro t
  rw [Array.getElem?_toList, Array.getElem?_extract]
  rcases Nat.lt_or_ge t pat.length with hlt | hge
  · rw [if_pos (by omega), h.upper t hlt]
  · rw [if_neg (by omega), List.getElem?_eq_none hge]

/-- Pushing a new column. -/
theorem Holds.push (h : Holds n k path pat s) (hkn : k < n) {i : ℕ} (hik : i < k)
    (hi : i ∉ path ++ pat) (hl : s.len < s.stack.size) (hm : i < s.marked.size) :
    Holds n k (path ++ [i]) pat
      { s with marked := s.marked.set i true, stack := s.stack.set s.len i, len := s.len + 1 } where
  size_marked := by simpa using h.size_marked
  size_stack := by simpa using h.size_stack
  len_eq := by simpa using h.len_eq
  top_eq := h.top_eq
  bottom t ht := by
    have hlen := h.len_eq
    rw [List.length_append, List.length_singleton] at ht
    rw [Array.getElem?_set]
    by_cases hcase : t = path.length
    · rw [if_pos (by omega), hcase, List.getElem?_append_right le_rfl]
      simp
    · rw [if_neg (by omega), h.bottom t (by omega), List.getElem?_append_left (by omega)]
  upper t ht := by
    have hlen := h.len_eq
    have htop := h.top_eq
    have hle := h.length_le
    show (s.stack.set s.len i)[s.top + t]? = pat[t]?
    rw [Array.getElem?_set, if_neg (by omega)]
    exact h.upper t ht
  marked j hj := by
    have hmark := h.marked j hj
    have hsize := h.size_marked
    rw [getD_of_lt _ (by simpa using by omega)] at hmark ⊢
    rw [Array.getElem_set]
    by_cases hij : i = j
    · simp [hij]
    · simp only [if_neg hij, hmark, List.mem_append, List.mem_singleton, Ne.symm hij, or_false]
  nodup := by
    rw [List.append_assoc, List.singleton_append, List.nodup_middle]
    exact List.nodup_cons.mpr ⟨hi, h.nodup⟩
  lt j hj := by
    simp only [List.append_assoc, List.mem_append, List.mem_singleton] at hj
    rcases hj with hj | rfl | hj
    · exact h.lt j (by simp [hj])
    · exact hik
    · exact h.lt j (by simp [hj])

/-- **Climbing pushes the path.** -/
theorem climb_ensures (ht : IsTree rows n parent) (hkn : k < n) {room i : ℕ}
    (h : Holds n k path pat s) (hik : i < k) (hpath : ∀ j ∈ path, j < i) (hroom : k - i ≤ room) :
    Ensures (climb parent k room i s)
      (Holds n k (path ++ treePath parent k pat room i) pat) := by
  induction room generalizing i s path with
  | zero => omega
  | succ room ih =>
    have him : i < s.marked.size := by rw [h.size_marked]; omega
    rw [climb, read_eq_ok_getD false him, ok_bind, treePath]
    by_cases hmem : i ∈ pat
    · rw [if_pos ((h.marked i (by omega)).mpr (by simp [hmem])), if_pos hmem, List.append_nil]
      exact .ok h
    · have hnot : i ∉ path ++ pat := by
        rw [List.mem_append, not_or]
        exact ⟨fun hc => by have := hpath i hc; omega, hmem⟩
      have hlen : s.len < s.stack.size := by
        have := h.length_le
        rw [h.size_stack, h.len_eq]
        omega
      rw [if_neg (mt (h.marked i (by omega)).mp hnot), if_neg hmem]
      simp only [write_eq_ok him, write_eq_ok hlen, ok_bind,
        read_eq_ok_getD none (show i < parent.size by rw [ht.size_eq]; omega)]
      have hpush := h.push hkn hik hnot hlen him
      cases hp : parent.getD i none with
      | none => exact .ok hpush
      | some p =>
        have hip := ((ht.parent_iff i (by omega) p).mp hp).lt
        by_cases hpk : p < k
        · simp only [hpk, if_true]
          refine (ih hpush hpk (fun j hj => ?_) (by omega)).mono fun s' hs' => ?_
          · rcases List.mem_append.mp hj with hj | hj
            · have := hpath j hj
              omega
            · obtain rfl : j = i := by simpa using hj
              exact hip
          · simpa using hs'
        · simp only [hpk, if_false]
          exact .ok hpush

/-- The last column of the path moves in front of the pattern. -/
theorem Holds.raise_last {path : List ℕ} {i : ℕ} (h : Holds n k (path ++ [i]) pat s)
    (htop : 0 < s.top) (hlt : s.top - 1 < s.stack.size) (hroom : path.length < s.top) :
    Holds n k path (i :: pat)
      { s with stack := s.stack.set (s.top - 1) i, len := path.length, top := s.top - 1 } where
  size_marked := h.size_marked
  size_stack := by simpa using h.size_stack
  len_eq := rfl
  top_eq := by
    have := h.top_eq
    show s.top - 1 + (i :: pat).length = n
    rw [List.length_cons]
    omega
  bottom := by
    intro t ht
    rw [Array.getElem?_set, if_neg (by omega), h.bottom t (by simp; omega),
      List.getElem?_append_left ht]
  upper := by
    intro t ht
    show (s.stack.set (s.top - 1) i)[s.top - 1 + t]? = (i :: pat)[t]?
    rw [Array.getElem?_set]
    cases t with
    | zero => simp
    | succ t =>
      rw [if_neg (by omega), List.getElem?_cons_succ, ← h.upper t (by simpa using ht)]
      congr 1
      omega
  marked := by
    intro j hj
    rw [h.marked j hj]
    simp
  nodup := by
    have := h.nodup
    rwa [List.append_assoc, List.singleton_append] at this
  lt := by
    intro j hj
    exact h.lt j (by simpa using hj)

/-- **Raising moves the path in front of the pattern.** -/
theorem raise_ensures (hkn : k < n) (h : Holds n k path pat s) :
    Ensures (raise s.len s) (Holds n k [] (path ++ pat)) := by
  -- raising begins with the last column of the path
  induction path using List.reverseRecOn generalizing pat s with
  | nil =>
    have hlen : s.len = 0 := by simpa using h.len_eq
    rw [hlen, raise]
    refine .ok ?_
    rw [← hlen]
    exact h
  | append_singleton path i ih =>
    have hlen : s.len = path.length + 1 := by simpa using h.len_eq
    have hle := h.length_le
    have htop := h.top_eq
    rw [List.length_append, List.length_singleton] at hle
    have hread : s.stack[path.length]? = some i := by
      rw [h.bottom path.length (by simp)]
      simp
    have hlt : s.top - 1 < s.stack.size := by
      rw [h.size_stack]
      omega
    rw [hlen, raise, require_eq_ok (by omega), ok_bind, read_of_getElem? hread, ok_bind,
      write_eq_ok hlt, ok_bind]
    have hnext := ih (h.raise_last (by omega) hlt (by omega))
    simpa using hnext

/-- Adding a path. -/
theorem addPath_ensures (ht : IsTree rows n parent) (hkn : k < n) {i : ℕ}
    (h : Holds n k [] pat s) (hik : i < k) :
    Ensures (addPath parent k i s)
      (Holds n k [] (treePath parent k pat parent.size i ++ pat)) := by
  rw [addPath, h.size_stack, ht.size_eq]
  refine (climb_ensures ht hkn h hik (by simp) (by omega)).bind fun s' hs' => ?_
  rw [List.nil_append] at hs'
  exact raise_ensures hkn hs'

end Pattern

end SplitQP
