import Mathlib.Data.Nat.Notation
import Mathlib.Tactic.Common
import SplitQP.Output.LogFile
/-!
# What becomes of the text of a log

The bytes that reached a log's file and those that still wait make up what was
written to it (`LogStore.Holds`). Writing, flushing and closing keep that up
(`Holds.pass`), so once everybody has let go the file holds all that was
written, in order (`Holds.settle`). Other files are left alone.
-/

namespace SplitQP

namespace LogStore

variable {s start : LogStore} {path : String} {file waiting bytes : ByteArray} {k : ℕ}

/-! ## Files -/

theorem lookup_filter (files : List (String × ByteArray)) {other : String} (h : other ≠ path) :
    (files.filter (·.1 ≠ path)).lookup other = files.lookup other := by
  induction files with
  | nil => rfl
  | cons entry files ih =>
    obtain ⟨name, bytes⟩ := entry
    rw [List.filter_cons]
    split
    · rw [List.lookup_cons, List.lookup_cons, ih]
    · rename_i hname
      have hpath : name = path := by simpa using hname
      rw [List.lookup_cons, ih, hpath, beq_false_of_ne h]

theorem contents?_setContents_self :
    (s.setContents path bytes).contents? path = some bytes := List.lookup_cons_self

theorem contents?_setContents_of_ne {other : String} (h : other ≠ path) :
    (s.setContents path bytes).contents? other = s.contents? other := by
  rw [contents?, setContents, List.lookup_cons, beq_false_of_ne h]
  exact lookup_filter s.files h

/-- Bytes written at the end of a file. -/
theorem overwrite_size (file bytes : ByteArray) :
    overwrite file file.size bytes = file ++ bytes := by
  have hgap : (⟨Array.replicate (file.size - file.size) 0⟩ : ByteArray) = .empty := by
    rw [Nat.sub_self]
    rfl
  have hrest : file.extract (file.size + bytes.size) file.size = .empty := by
    rw [ByteArray.extract_eq_empty_iff]
    omega
  rw [overwrite]
  simp only [hgap, hrest, ByteArray.extract_zero_size, ByteArray.append_empty]

/-! ## Nothing waits -/

/-- Nothing waits in any log. -/
def Idle (s : LogStore) : Prop := ∀ log ∈ s.logs, log.waiting = .empty

/-- Where nothing waits nothing is passed on. -/
theorem flush_of_waiting (h : ∀ log, s.logs[k]? = some log → log.waiting = .empty) :
    s.flush k = s := by
  rw [flush, pass]
  split
  · rfl
  · rename_i log hlog
    obtain ⟨path, position, waiting, holders⟩ := log
    obtain rfl : waiting = .empty := h _ hlog
    have hsame : (s.logs.modify k fun _ => ⟨path, position, .empty, holders⟩) = s.logs := by
      apply Array.ext_getElem?
      intro i
      rw [Array.getElem?_modify]
      split
      · rename_i hi
        rw [← hi, hlog]
        rfl
      · rfl
    dsimp only
    exact congrArg (LogStore.mk s.files) hsame

theorem foldl_flush_of_waiting {ks : List ℕ}
    (h : ∀ k ∈ ks, ∀ log, s.logs[k]? = some log → log.waiting = .empty) :
    ks.foldl flush s = s := by
  induction ks with
  | nil => rfl
  | cons k ks ih =>
    rw [List.foldl_cons, flush_of_waiting (h k List.mem_cons_self)]
    exact ih fun k' hk' => h k' (List.mem_cons_of_mem k hk')

theorem Idle.settle (h : s.Idle) : s.settle = s :=
  foldl_flush_of_waiting fun _ _ log hlog => h log (Array.mem_of_getElem? hlog)

/-! ## The log opened last -/

theorem latest_pass (f : OpenLog → ByteArray × OpenLog) : (s.pass k f).latest = s.latest := by
  rw [latest, latest, pass]
  split
  · rfl
  · dsimp only
    split <;> simp [setContents]

/-- **The log opened last:** `file` has reached its file, at `path`, and `waiting` waits.
Nothing waits elsewhere, and the other files are those of `start`. -/
structure Holds (start : LogStore) (path : String) (file waiting : ByteArray) (s : LogStore) :
    Prop where
  log : ∃ log, s.logs[s.latest]? = some log ∧ log.path = path ∧ log.position = file.size ∧
    log.waiting = waiting
  contents : s.contents? path = some file
  idle : ∀ k < s.latest, ∀ log, s.logs[k]? = some log → log.waiting = .empty
  others : ∀ other, other ≠ path → s.contents? other = start.contents? other

/-- A new log holds nothing. -/
theorem Idle.create (h : start.Idle) (path : String) :
    Holds start path .empty .empty (start.create path) where
  log := by
    refine ⟨⟨path, 0, .empty, 1⟩, ?_, rfl, rfl, rfl⟩
    rw [latest, LogStore.create, Array.size_push, Nat.add_sub_cancel]
    exact Array.getElem?_push_size
  contents := contents?_setContents_self
  idle k hk log hlog := by
    have hlt : k < start.logs.size := by
      rwa [latest, LogStore.create, Array.size_push, Nat.add_sub_cancel] at hk
    have hlogs : (start.create path).logs = start.logs.push ⟨path, 0, .empty, 1⟩ := rfl
    rw [hlogs, Array.getElem?_push_lt hlt] at hlog
    cases hlog
    exact h _ (Array.getElem_mem hlt)
  others other hother := contents?_setContents_of_ne hother

namespace Holds

/-- The log opened last is changed, and its file with it. -/
theorem of_modify (h : Holds start path file waiting s) {s' : LogStore} {file' waiting' : ByteArray}
    (g : OpenLog → OpenLog) (hlogs : s'.logs = s.logs.modify s.latest g)
    (hg : ∀ log, log.path = path → log.position = file.size → log.waiting = waiting →
      (g log).path = path ∧ (g log).position = file'.size ∧ (g log).waiting = waiting')
    (hcontents : s'.contents? path = some file')
    (hothers : ∀ other, other ≠ path → s'.contents? other = s.contents? other) :
    Holds start path file' waiting' s' := by
  have hlatest : s'.latest = s.latest := by rw [latest, latest, hlogs, Array.size_modify]
  obtain ⟨log, hlog, hpath, hposition, hwaiting⟩ := h.log
  refine ⟨⟨g log, ?_, hg log hpath hposition hwaiting⟩, hcontents, fun k hk log' hlog' => ?_,
    fun other hother => (hothers other hother).trans (h.others other hother)⟩
  · rw [hlatest, hlogs, Array.getElem?_modify, if_pos rfl, hlog]
    rfl
  · rw [hlatest] at hk
    rw [hlogs, Array.getElem?_modify, if_neg (Nat.ne_of_gt hk)] at hlog'
    exact h.idle k hk log' hlog'

/-- **Bytes passed on** stay in order behind those that were. -/
theorem pass (h : Holds start path file waiting s) (f : OpenLog → ByteArray × OpenLog)
    {passed rest : ByteArray} (hf : ∀ log, log.waiting = waiting →
      (f log).1 = passed ∧ (f log).2.waiting = rest ∧ (f log).2.path = log.path) :
    Holds start path (file ++ passed) rest (s.pass s.latest f) := by
  obtain ⟨log, hlog, hpath, hposition, hwaiting⟩ := h.log
  obtain ⟨hpassed, hrest, hkept⟩ := hf log hwaiting
  let next : OpenLog := { (f log).2 with position := file.size + passed.size }
  let s' : LogStore := { s with logs := s.logs.modify s.latest fun _ => next }
  have hcontents : (s.contents? path).getD .empty = file := by rw [h.contents, Option.getD_some]
  have hpass : s.pass s.latest f =
      if passed.isEmpty then s' else s'.setContents path (file ++ passed) := by
    rw [LogStore.pass, hlog]
    dsimp only
    rw [hpassed, hpath, hcontents, hposition, overwrite_size]
  have hnext : next.path = path ∧ next.position = (file ++ passed).size ∧ next.waiting = rest :=
    ⟨hkept.trans hpath, ByteArray.size_append.symm, hrest⟩
  rw [hpass]
  split
  · rename_i hempty
    have hnone : passed = .empty := ByteArray.size_eq_zero_iff.mp (eq_of_beq hempty)
    refine h.of_modify (fun _ => next) rfl (fun _ _ _ _ => hnext) ?_ fun _ _ => rfl
    rw [hnone, ByteArray.append_empty]
    exact h.contents
  · exact h.of_modify (fun _ => next) rfl (fun _ _ _ _ => hnext) contents?_setContents_self
      fun other hother => contents?_setContents_of_ne hother

/-- **Text written** comes behind the text that was. -/
theorem write (h : Holds start path file waiting s) (bytes : ByteArray) :
    ∃ file' waiting', Holds start path file' waiting' (s.write s.latest bytes) ∧
      file' ++ waiting' = file ++ waiting ++ bytes := by
  have haccept : (OpenLog.accept waiting bytes).1 ++ (OpenLog.accept waiting bytes).2 =
      waiting ++ bytes := by
    rw [OpenLog.accept]
    split_ifs
    · exact ByteArray.append_empty
    · rfl
    · exact ByteArray.empty_append
  have hwrite : Holds start path (file ++ (OpenLog.accept waiting bytes).1)
      (OpenLog.accept waiting bytes).2 (s.write s.latest bytes) :=
    h.pass _ fun log hlog => by
      rw [hlog]
      exact ⟨rfl, rfl, rfl⟩
  exact ⟨_, _, hwrite, by rw [ByteArray.append_assoc, haccept, ByteArray.append_assoc]⟩

/-- Flushed, all of it is in the file. -/
theorem flush (h : Holds start path file waiting s) :
    Holds start path (file ++ waiting) .empty (s.flush s.latest) :=
  h.pass _ fun _ hlog => ⟨hlog, rfl, rfl⟩

/-- A holder may let go once all of it is. -/
theorem drop (h : Holds start path file .empty s) :
    Holds start path file .empty (s.drop s.latest) := by
  let s' : LogStore := { s with logs := s.logs.modify s.latest fun log =>
    { log with holders := log.holders - 1 } }
  have hlatest : s'.latest = s.latest := by rw [latest, latest, Array.size_modify]
  have hs' : Holds start path file .empty s' :=
    h.of_modify (fun log => { log with holders := log.holders - 1 }) rfl
      (fun _ hpath hposition hwaiting => ⟨hpath, hposition, hwaiting⟩) h.contents fun _ _ => rfl
  have hflush := hs'.flush
  rw [ByteArray.append_empty, hlatest] at hflush
  rw [LogStore.drop]
  split
  · split
    · exact hflush
    · exact hs'
  · exact hs'

/-- **Closed,** all of it is in the file. -/
theorem close (h : Holds start path file waiting s) :
    Holds start path (file ++ waiting) .empty (s.close s.latest) := by
  have hclose : s.close s.latest = (s.flush s.latest).drop (s.flush s.latest).latest := by
    rw [LogStore.close, LogStore.flush, latest_pass]
  rw [hclose]
  exact h.flush.drop

theorem size_logs (h : Holds start path file waiting s) : s.logs.size = s.latest + 1 := by
  obtain ⟨log, hlog, -⟩ := h.log
  have hlt := (Array.getElem?_eq_some_iff.mp hlog).1
  rw [latest] at hlt ⊢
  omega

/-- Once all of it is in the file nothing waits. -/
theorem idle_of_flushed (h : Holds start path file .empty s) : s.Idle := by
  intro log hlog
  obtain ⟨i, hi, rfl⟩ := Array.getElem_of_mem hlog
  have hsome : s.logs[i]? = some s.logs[i] := Array.getElem?_eq_getElem hi
  rw [h.size_logs] at hi
  rcases Nat.lt_succ_iff_lt_or_eq.mp hi with hlt | rfl
  · exact h.idle i hlt _ hsome
  · obtain ⟨last, hlast, -, -, hwaiting⟩ := h.log
    rw [hlast] at hsome
    cases hsome
    exact hwaiting

/-- **Once everybody has let go** the file holds all that was written. -/
theorem settle (h : Holds start path file waiting s) :
    Holds start path (file ++ waiting) .empty s.settle := by
  have hearlier : (List.range s.latest).foldl LogStore.flush s = s :=
    foldl_flush_of_waiting fun k hk => h.idle k (List.mem_range.mp hk)
  have hsettle : s.settle = s.flush s.latest := by
    rw [LogStore.settle, h.size_logs, List.range_succ, List.foldl_append, hearlier]
    rfl
  rw [hsettle]
  exact h.flush

end Holds

end LogStore

end SplitQP
