import SplitQP.Call.Record
import SplitQP.Proofs.Text.Utf8
import SplitQP.Proofs.Json.Typed
/-!
# What comes back of a recorded call

A call is written to its file as it is, but infinite bounds as the largest
doubles. Read again it has the bounds that were infinite, and infinite ones
where they were the largest doubles (`boundKept_boundToKeep`). A double
that is not a number, or an infinite one that is no bound, makes the file
unreadable. Everything else comes back as it was, every finite double, every
string and every integer of 64 bits (`ofFile_toJson_cases`).
-/

namespace SplitQP

open Binary Reader

/-- All indices are integers of 64 bits. -/
structure Coordinates.Is64Bit (c : Coordinates Float) : Prop where
  rows : ∀ i ∈ c.rows, IsInt64 i
  cols : ∀ i ∈ c.cols, IsInt64 i

namespace Call

/-- All integers of the call are of 64 bits. -/
structure Is64Bit (c : Call Float) : Prop where
  n : IsInt64 c.n
  m : IsInt64 c.m
  quadratic : c.quadratic.Is64Bit
  matrix : c.matrix.Is64Bit

/-! ## Bounds -/

/-- Only the two largest doubles have the magnitude of the largest. -/
theorem abs_beq_largest_iff {x : Float} :
    (x.abs == largest) = true ↔ x = largest ∨ x = -largest := by
  constructor
  · intro h
    have hback := toFloat_ofFloat x
    have habs : (Float.Model.pack (ofFloat x).unpacked.abs).unpack.beq
        largest.toModel.unpack = true := by
      rw [← unpack_toModel]
      exact h
    cases hvalue : ofFloat x with
    | nan =>
      rw [hvalue] at habs
      exact absurd habs (by decide)
    | infinite negative =>
      rw [hvalue] at habs
      exact absurd habs (by cases negative <;> decide)
    | finite negative m e =>
      rw [hvalue] at habs hback
      rcases canonical_or_zero negative hvalue with hc | ⟨rfl, rfl⟩
      · have hlargest :
            largest.toModel.unpack = .finite .positive (2 ^ 53 - 1) 971 (by decide) := rfl
        have habs' : (Float.Model.pack (.finite (signOf false) m e hc.pos)).unpack.beq
            largest.toModel.unpack = true := by
          rwa [unpacked, dif_pos hc.pos] at habs
        rw [unpack_pack_finite false hc, hlargest] at habs'
        have hsame : (compare e 971).then (compare m (2 ^ 53 - 1)) = .eq :=
          Option.some_inj.mp (eq_of_beq habs')
        obtain ⟨he, hm⟩ := Ordering.then_eq_eq.mp hsame
        obtain rfl : e = 971 := compare_eq_iff_eq.mp he
        obtain rfl : m = 2 ^ 53 - 1 := compare_eq_iff_eq.mp hm
        rw [← hback]
        cases negative with
        | false => exact .inl rfl
        | true => exact .inr rfl
      · exact absurd habs (by cases negative <;> decide)
  · rintro (rfl | rfl) <;> decide

/-- The infinite doubles. -/
theorem isInf_cases {x : Float} (hx : x.isInf = true) : x = 1.0 / 0.0 ∨ x = -(1.0 / 0.0) := by
  obtain ⟨negative, hvalue⟩ := isInf_iff.mp hx
  rw [← toFloat_ofFloat x, hvalue]
  cases negative with
  | false => exact .inl rfl
  | true => exact .inr rfl

/-- Every bound that is a number is kept as a finite double. -/
theorem isFinite_boundToKeep (x : Float) : (boundToKeep x).isFinite = !x.isNaN := by
  by_cases hx : x.isInf = true
  · rcases isInf_cases hx with rfl | rfl <;> decide
  · rw [boundToKeep, if_neg hx]
    rw [Float.isInf, Float.Model.isInf] at hx
    rw [Float.isFinite, Float.isNaN, Float.Model.isFinite, Float.Model.isNaN]
    cases hvalue : x.toModel.unpack with
    | infinity => exact absurd (by rw [hvalue]; rfl) hx
    | notANumber => rfl
    | zero => rfl
    | finite => rfl

/-- **A bound comes back** as it was, but infinite where it was the largest double. -/
theorem boundKept_boundToKeep (x : Float) : boundKept (boundToKeep x) = boundKept x := by
  by_cases hx : x.isInf = true
  · rcases isInf_cases hx with rfl | rfl <;> decide
  · rw [boundToKeep, if_neg hx]

theorem boundKept_eq_self_iff {x : Float} : boundKept x = x ↔ x ≠ largest ∧ x ≠ -largest := by
  rw [← not_or, ← abs_beq_largest_iff, boundKept]
  split
  · rename_i h
    simp only [h, not_true, iff_false]
    rcases abs_beq_largest_iff.mp h with rfl | rfl <;> decide
  · rename_i h
    simp [h]

/-! ## Arrays -/

/-- What becomes of an array of doubles. -/
def keptAll (xs : Array Float) : Except JsonError (Array Float) :=
  if xs.all Float.isFinite then .ok xs else .error .mistyped

theorem list_mapM_kept (xs : List Float) :
    xs.mapM kept = if xs.all Float.isFinite then .ok xs else .error .mistyped := by
  induction xs with
  | nil => rfl
  | cons x xs ih =>
    rw [List.mapM_cons, ih, List.all_cons, kept]
    cases x.isFinite with
    | false => rfl
    | true =>
      rw [Bool.true_and, if_pos rfl]
      split <;> rfl

theorem answers_floats (xs : Array Float) :
    Answers (array float) (JsonWriter.floats xs) (keptAll xs) := by
  have hkept : xs.mapM kept = keptAll xs := by
    rw [Array.mapM_eq_mapM_toList, list_mapM_kept, keptAll, Array.all_toList]
    split <;> rfl
  rw [← hkept]
  exact answers_array fun x _ => ⟨begins_write x, answers_float x⟩

theorem answers_ints {is : Array ℤ} (h : ∀ i ∈ is, IsInt64 i) :
    Answers (array int64) (JsonWriter.ints is) (.ok is) := by
  have hkept : is.mapM (Except.ok : ℤ → Except JsonError ℤ) = .ok is :=
    (Checked.array_mapM_eq_ok (g := id) fun _ _ => rfl).trans (by rw [Array.map_id])
  rw [← hkept]
  exact answers_array fun i hi => ⟨begins_writeInt i, answers_int64 (h i hi)⟩

theorem answers_strings (ss : Array String) :
    Answers (array string) (JsonWriter.strings ss) (.ok ss) := by
  have hkept : ss.mapM (Except.ok : String → Except JsonError String) = .ok ss :=
    (Checked.array_mapM_eq_ok (g := id) fun _ _ => rfl).trans (by rw [Array.map_id])
  rw [← hkept]
  exact answers_array fun s _ => ⟨begins_writeString s, answers_string s⟩

/-! ## Records -/

/-- The reader of a field that holds something else of its own. -/
theorem answers_bind {β γ : Type} {r : Reader β} {text : List Char} {outcome : Except JsonError β}
    (h : Answers r text outcome) (f : β → γ) :
    Answers (r >>= fun b => pure (f b)) text (outcome.map f) := by
  intro rest hrest
  have hr := h rest hrest
  cases outcome with
  | error e => exact bind_of_error hr
  | ok b => exact bind_of_ok hr

/-- A matrix as members of a record. -/
def coordinatesMembers (c : Coordinates Float) : List (Member (Coordinates Float)) := [
  ⟨⟨"rows", fun s => do return { s with rows := ← array int64 }⟩, JsonWriter.ints c.rows,
    fun s => .ok { s with rows := c.rows }⟩,
  ⟨⟨"cols", fun s => do return { s with cols := ← array int64 }⟩, JsonWriter.ints c.cols,
    fun s => .ok { s with cols := c.cols }⟩,
  ⟨⟨"vals", fun s => do return { s with vals := ← array float }⟩, JsonWriter.floats c.vals,
    fun s => (keptAll c.vals).map ({ s with vals := · })⟩]

theorem answers_coordinates {c : Coordinates Float} (hc : c.Is64Bit) :
    Answers readCoordinates (writeCoordinates c) ((keptAll c.vals).map fun _ => c) := by
  have hmembers : ∀ m ∈ coordinatesMembers c, m.Faithful := by
    simp only [coordinatesMembers, List.forall_mem_cons]
    exact ⟨fun s => answers_bind (answers_ints hc.rows) _,
      fun s => answers_bind (answers_ints hc.cols) _,
      fun s => answers_bind (answers_floats c.vals) _, fun m hm => nomatch hm⟩
  have hnames : ((coordinatesMembers c).map (·.field.name)).Nodup := by simp [coordinatesMembers]
  have hrecord := answers_record hnames hmembers {}
  have houtcome : (coordinatesMembers c).foldlM (fun v (m : Member _) => m.outcome v) {} =
      (keptAll c.vals).map fun _ => c := by
    simp only [coordinatesMembers, keptAll]
    split <;> rfl
  rw [houtcome] at hrecord
  exact hrecord

/-- A call as members of a record. -/
def recordMembers (c : Call Float) : List (Member (Call Float)) := [
  ⟨⟨"num_variables", fun s => do return { s with n := ← int64 }⟩, Numeral.writeInt c.n,
    fun s => .ok { s with n := c.n }⟩,
  ⟨⟨"num_constraints", fun s => do return { s with m := ← int64 }⟩, Numeral.writeInt c.m,
    fun s => .ok { s with m := c.m }⟩,
  ⟨⟨"log_path", fun s => do return { s with logPath := ← string }⟩, JsonText.write c.logPath,
    fun s => .ok { s with logPath := c.logPath }⟩,
  ⟨⟨"linear_objective", fun s => do return { s with objective := ← array float }⟩,
    JsonWriter.floats c.objective, fun s => (keptAll c.objective).map ({ s with objective := · })⟩,
  ⟨⟨"quadratic_objective", fun s => do return { s with quadratic := ← readCoordinates }⟩,
    writeCoordinates c.quadratic,
    fun s => (keptAll c.quadratic.vals).map fun _ => { s with quadratic := c.quadratic }⟩,
  ⟨⟨"constraints", fun s => do return { s with matrix := ← readCoordinates }⟩,
    writeCoordinates c.matrix,
    fun s => (keptAll c.matrix.vals).map fun _ => { s with matrix := c.matrix }⟩,
  ⟨⟨"lower_bounds", fun s => do return { s with lower := ← array float }⟩,
    JsonWriter.floats (c.lower.map boundToKeep),
    fun s => (keptAll (c.lower.map boundToKeep)).map ({ s with lower := · })⟩,
  ⟨⟨"upper_bounds", fun s => do return { s with upper := ← array float }⟩,
    JsonWriter.floats (c.upper.map boundToKeep),
    fun s => (keptAll (c.upper.map boundToKeep)).map ({ s with upper := · })⟩,
  ⟨⟨"setting_names", fun s => do return { s with names := ← array string }⟩,
    JsonWriter.strings c.names, fun s => .ok { s with names := c.names }⟩,
  ⟨⟨"setting_values", fun s => do return { s with values := ← array float }⟩,
    JsonWriter.floats c.values, fun s => (keptAll c.values).map ({ s with values := · })⟩]

theorem faithful_recordMembers {c : Call Float} (hc : c.Is64Bit) :
    ∀ m ∈ c.recordMembers, m.Faithful := by
  simp only [recordMembers, List.forall_mem_cons]
  have hcoordinates : ∀ {c : Coordinates Float}, c.Is64Bit → ∀ f : Coordinates Float → Call Float,
      Answers (readCoordinates >>= fun b => pure (f b)) (writeCoordinates c)
        ((keptAll c.vals).map fun _ => f c) := fun hc f => by
    have hread := answers_bind (answers_coordinates hc) f
    rw [keptAll] at hread ⊢
    split at hread <;> rename_i h
    · rwa [if_pos h]
    · rwa [if_neg h]
  exact ⟨fun s => answers_bind (answers_int64 hc.n) _, fun s => answers_bind (answers_int64 hc.m) _,
    fun s => answers_bind (answers_string _) _, fun s => answers_bind (answers_floats _) _,
    fun s => hcoordinates hc.quadratic _, fun s => hcoordinates hc.matrix _,
    fun s => answers_bind (answers_floats _) _, fun s => answers_bind (answers_floats _) _,
    fun s => answers_bind (answers_strings _) _, fun s => answers_bind (answers_floats _) _,
    fun m hm => nomatch hm⟩

/-- The call with its bounds as they are kept. -/
def toKeep (c : Call Float) : Call Float :=
  { c with lower := c.lower.map boundToKeep, upper := c.upper.map boundToKeep }

/-- All doubles that are kept are finite. -/
def AllFinite (c : Call Float) : Bool :=
  c.objective.all Float.isFinite && c.quadratic.vals.all Float.isFinite &&
    c.matrix.vals.all Float.isFinite && c.lower.all Float.isFinite && c.upper.all Float.isFinite &&
    c.values.all Float.isFinite

theorem foldlM_recordMembers (c : Call Float) :
    c.recordMembers.foldlM (fun v (m : Member (Call Float)) => m.outcome v) {} =
      if c.toKeep.AllFinite then .ok c.toKeep else .error .mistyped := by
  have hkept : ∀ xs, keptAll xs = .ok xs ∧ xs.all Float.isFinite = true ∨
      keptAll xs = .error .mistyped ∧ xs.all Float.isFinite = false := fun xs => by
    rw [keptAll]
    cases xs.all Float.isFinite
    · exact .inr ⟨rfl, rfl⟩
    · exact .inl ⟨rfl, rfl⟩
  have hall : c.toKeep.AllFinite = (c.objective.all Float.isFinite &&
      c.quadratic.vals.all Float.isFinite && c.matrix.vals.all Float.isFinite &&
      (c.lower.map boundToKeep).all Float.isFinite &&
      (c.upper.map boundToKeep).all Float.isFinite && c.values.all Float.isFinite) := rfl
  rw [hall]
  simp only [recordMembers, List.foldlM_cons, List.foldlM_nil]
  -- the first array with a double that is not finite stops the reader
  rcases hkept c.objective with ⟨hq, hq'⟩ | ⟨hq, hq'⟩ <;> rw [hq, hq']
  · rcases hkept c.quadratic.vals with ⟨hP, hP'⟩ | ⟨hP, hP'⟩ <;> rw [hP, hP']
    · rcases hkept c.matrix.vals with ⟨hA, hA'⟩ | ⟨hA, hA'⟩ <;> rw [hA, hA']
      · rcases hkept (c.lower.map boundToKeep) with ⟨hl, hl'⟩ | ⟨hl, hl'⟩ <;> rw [hl, hl']
        · rcases hkept (c.upper.map boundToKeep) with ⟨hu, hu'⟩ | ⟨hu, hu'⟩ <;> rw [hu, hu']
          · rcases hkept c.values with ⟨hv, hv'⟩ | ⟨hv, hv'⟩ <;> rw [hv, hv'] <;> rfl
          · rfl
        · rfl
      · rfl
    · rfl
  · rfl

/-! ## Calls and their files -/

/-- The call with its bounds as they come back. -/
def widened (c : Call Float) : Call Float :=
  { c with lower := c.lower.map boundKept, upper := c.upper.map boundKept }

/-- **A call read from its own file:** its bounds widened, or nothing at all. -/
theorem ofFile_toJson {c : Call Float} (hc : c.Is64Bit) :
    ofFile c.toJson.toUTF8 =
      if c.toKeep.AllFinite then .ok c.widened else .error .invalidData := by
  have hnames : (c.recordMembers.map (·.field.name)).Nodup := by simp [recordMembers]
  have hrecord := answers_record hnames (faithful_recordMembers hc) {} [] ends_nil
  rw [foldlM_recordMembers, List.append_nil] at hrecord
  have hread : (record jsonFields true {}).run c.toJson.toList =
      (if c.toKeep.AllFinite then .ok c.toKeep else .error .mistyped : Except _ _).map (·, []) := by
    rw [toJson, String.toList_ofList]
    exact hrecord
  have hwidened : ∀ xs : Array Float, (xs.map boundToKeep).map boundKept = xs.map boundKept :=
    fun xs => by
      rw [Array.map_map]
      exact Array.map_congr_left fun x _ => boundKept_boundToKeep x
  rw [ofFile, Utf8.decode?_eq_some_iff.mpr rfl]
  simp only [ofJson, readAll, hread]
  split
  · show Except.ok { c.toKeep with
      lower := c.toKeep.lower.map boundKept, upper := c.toKeep.upper.map boundKept } = _
    rw [widened, ← hwidened c.lower, ← hwidened c.upper]
    rfl
  · rfl

/-- All doubles of the call are numbers, and finite ones where they are no bounds. -/
structure Writable (c : Call Float) : Prop where
  objective : ∀ x ∈ c.objective, x.isFinite = true
  quadratic : ∀ x ∈ c.quadratic.vals, x.isFinite = true
  matrix : ∀ x ∈ c.matrix.vals, x.isFinite = true
  values : ∀ x ∈ c.values, x.isFinite = true
  lower : ∀ x ∈ c.lower, x.isNaN = false
  upper : ∀ x ∈ c.upper, x.isNaN = false

theorem writable_iff {c : Call Float} : c.toKeep.AllFinite = true ↔ c.Writable := by
  have hbounds : ∀ xs : Array Float, (xs.map boundToKeep).all Float.isFinite = true ↔
      ∀ x ∈ xs, x.isNaN = false := fun xs => by
    rw [Array.all_map, Array.all_eq_true_iff_forall_mem]
    simp only [Function.comp_apply, isFinite_boundToKeep, Bool.not_eq_true']
  rw [AllFinite, toKeep]
  simp only [Bool.and_eq_true, hbounds, Array.all_eq_true_iff_forall_mem]
  exact ⟨fun ⟨⟨⟨⟨⟨hq, hP⟩, hA⟩, hl⟩, hu⟩, hv⟩ => ⟨hq, hP, hA, hv, hl, hu⟩,
    fun ⟨hq, hP, hA, hv, hl, hu⟩ => ⟨⟨⟨⟨⟨hq, hP⟩, hA⟩, hl⟩, hu⟩, hv⟩⟩

theorem map_boundKept_eq_self_iff {xs : Array Float} :
    xs.map boundKept = xs ↔ ∀ x ∈ xs, x ≠ largest ∧ x ≠ -largest := by
  refine ⟨fun h x hx => ?_, fun h => ?_⟩
  · obtain ⟨i, hi, rfl⟩ := Array.getElem_of_mem hx
    rw [← boundKept_eq_self_iff, ← Array.getElem_map boundKept (by simpa using hi)]
    congr 1
  · calc xs.map boundKept = xs.map id :=
          Array.map_congr_left fun x hx => boundKept_eq_self_iff.mpr (h x hx)
      _ = xs := Array.map_id xs

theorem widened_eq_self_iff {c : Call Float} :
    c.widened = c ↔ (∀ x ∈ c.lower, x ≠ largest ∧ x ≠ -largest) ∧
      ∀ x ∈ c.upper, x ≠ largest ∧ x ≠ -largest := by
  rw [← map_boundKept_eq_self_iff, ← map_boundKept_eq_self_iff]
  refine ⟨fun h => ⟨congrArg Call.lower h, congrArg Call.upper h⟩, fun h => ?_⟩
  rw [widened, h.1, h.2]

/-- **What comes back of a call from its own file.** Where every double is a number, and finite
if it is no bound, the call does, but bounds that are the largest double or its opposite come
back infinite; otherwise the file cannot be read. So a call comes back as it was exactly where
neither happens. -/
theorem ofFile_toJson_cases (c : Call Float) (hc : c.Is64Bit) :
    (c.Writable → ofFile c.toJson.toUTF8 = .ok c.widened) ∧
    (¬ c.Writable → ofFile c.toJson.toUTF8 = .error .invalidData) ∧
    (ofFile c.toJson.toUTF8 = .ok c ↔
      c.Writable ∧ (∀ x ∈ c.lower, x ≠ largest ∧ x ≠ -largest) ∧
        ∀ x ∈ c.upper, x ≠ largest ∧ x ≠ -largest) := by
  have hfile := ofFile_toJson hc
  rw [← widened_eq_self_iff]
  by_cases h : c.Writable
  · rw [if_pos (writable_iff.mpr h)] at hfile
    refine ⟨fun _ => hfile, fun hnot => absurd h hnot, ?_⟩
    rw [hfile]
    exact ⟨fun heq => ⟨h, Except.ok.inj heq⟩, fun heq => congrArg _ heq.2⟩
  · rw [if_neg fun hall => h (writable_iff.mp hall)] at hfile
    refine ⟨fun hnot => absurd hnot h, fun _ => hfile, ?_⟩
    rw [hfile]
    refine ⟨fun heq => ?_, fun heq => absurd heq.1 h⟩
    cases heq

/-- One variable with a bound on either side. -/
def oneBounded : Call Float where
  n := 1
  m := 1
  objective := #[1]
  matrix := ⟨#[0], #[0], #[1]⟩
  lower := #[0]
  upper := #[10]

theorem is64Bit_oneBounded : oneBounded.Is64Bit :=
  have h0 : IsInt64 0 := by decide
  have h1 : IsInt64 1 := by decide
  ⟨h1, h1, ⟨Array.forall_mem_empty _, Array.forall_mem_empty _⟩,
    ⟨Array.forall_mem_singleton.mpr h0, Array.forall_mem_singleton.mpr h0⟩⟩

theorem writable_oneBounded : oneBounded.Writable where
  objective := Array.forall_mem_singleton.mpr (by decide)
  quadratic := Array.forall_mem_empty _
  matrix := Array.forall_mem_singleton.mpr (by decide)
  values := Array.forall_mem_empty _
  lower := Array.forall_mem_singleton.mpr (by decide)
  upper := Array.forall_mem_singleton.mpr (by decide)

/-- The same without an upper bound, and with a setting. -/
def oneUnbounded : Call Float :=
  { oneBounded with upper := #[1.0 / 0.0], names := #["EPS_ABS"], values := #[1e-6] }

theorem is64Bit_oneUnbounded : oneUnbounded.Is64Bit :=
  ⟨is64Bit_oneBounded.n, is64Bit_oneBounded.m, is64Bit_oneBounded.quadratic,
    is64Bit_oneBounded.matrix⟩

/-- It comes back. -/
theorem ofFile_toJson_oneUnbounded :
    oneUnbounded.Is64Bit ∧ ofFile oneUnbounded.toJson.toUTF8 = .ok oneUnbounded :=
  ⟨is64Bit_oneUnbounded, (ofFile_toJson_cases oneUnbounded is64Bit_oneUnbounded).2.2.mpr
    ⟨{ writable_oneBounded with
        values := Array.forall_mem_singleton.mpr (by decide)
        upper := Array.forall_mem_singleton.mpr (by decide) },
      Array.forall_mem_singleton.mpr (by decide), Array.forall_mem_singleton.mpr (by decide)⟩⟩

/-- A cost that is infinite. -/
def infiniteCost : Call Float := { oneBounded with objective := #[1.0 / 0.0] }

/-- The largest double as a bound. -/
def largestBound : Call Float := { oneBounded with upper := #[largest] }

/-- **Neither comes back:** the first cannot be read, and the second has no bound any more. -/
theorem ofFile_toJson_ne :
    infiniteCost.Is64Bit ∧ ofFile infiniteCost.toJson.toUTF8 = .error .invalidData ∧
      largestBound.Is64Bit ∧
      ofFile largestBound.toJson.toUTF8 = .ok { largestBound with upper := #[1.0 / 0.0] } ∧
      { largestBound with upper := #[1.0 / 0.0] } ≠ largestBound := by
  obtain ⟨hn, hm, hP, hA⟩ := is64Bit_oneBounded
  have hinfinite : infiniteCost.Is64Bit := ⟨hn, hm, hP, hA⟩
  have hlargest : largestBound.Is64Bit := ⟨hn, hm, hP, hA⟩
  have hunwritable : ¬ infiniteCost.Writable := fun h =>
    absurd (Array.forall_mem_singleton.mp h.objective) (by decide)
  have hwritable : largestBound.Writable :=
    { writable_oneBounded with upper := Array.forall_mem_singleton.mpr (by decide) }
  have hwidened : largestBound.widened = { largestBound with upper := #[1.0 / 0.0] } := by
    have hlower : boundKept 0 = 0 := by decide
    have hupper : boundKept largest = 1.0 / 0.0 := by decide
    simp [widened, largestBound, oneBounded, hlower, hupper]
  refine ⟨hinfinite, ?_, hlargest, ?_, fun h => absurd (congrArg Call.upper h) (by decide)⟩
  · rw [ofFile_toJson hinfinite, if_neg fun h => hunwritable (writable_iff.mp h)]
  · rw [ofFile_toJson hlargest, if_pos (writable_iff.mpr hwritable), hwidened]

end Call

end SplitQP
