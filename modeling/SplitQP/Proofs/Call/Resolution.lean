import Mathlib.Logic.Function.Basic
import SplitQP.Proofs.Answers
import SplitQP.Proofs.Number.Whole
import SplitQP.Call.Resolution
/-!
# What names and values are resolved to

The value given last under a name is the one that counts, and nothing else
does (`Settings.resolve_eq`). After some pairs the settings are the defaults
with what these pairs gave last (`Resolution.After`); one more pair replaces
at most one of these values. The stream has a line for every name that was
not recognised, and no part in the settings.
-/

namespace SplitQP

open Checked

/-! ## The tables agree -/

namespace SettingName

/-- How the value of a setting is converted. -/
def transform : SettingName → Transform
  | polish | maxIter => .rounded
  | _ => .direct

/-- The texts that name a setting. -/
def Recognised (text : String) : Prop := text ∈ all.map SettingName.text

instance (text : String) : Decidable (Recognised text) := inferInstanceAs (Decidable (_ ∈ _))

theorem recognised_iff {text : String} : Recognised text ↔ ∃ n : SettingName, text = n.text := by
  have hall : ∀ n : SettingName, n ∈ all := fun n => by cases n <;> decide
  simp only [Recognised, List.mem_map, hall, true_and, eq_comm]

theorem mem_table_iff {text : String} {n : SettingName} {t : Transform} :
    (text, n, t) ∈ table ↔ text = n.text ∧ t = n.transform := by
  cases n <;> cases t <;> simp [table, SettingName.text, transform]

/-- **The table has each name once,** with its own setting and conversion. -/
theorem lookup?_eq_some_iff {text : String} {n : SettingName} {t : Transform} :
    lookup? text = some (n, t) ↔ text = n.text ∧ t = n.transform := by
  constructor
  · intro h
    obtain ⟨before, after, htable, -⟩ := List.lookup_eq_some_iff.mp h
    refine mem_table_iff.mp ?_
    rw [htable]
    exact List.mem_append_right _ List.mem_cons_self
  · rintro ⟨rfl, rfl⟩
    cases n <;> decide

theorem lookup?_eq_none_iff {text : String} : lookup? text = none ↔ ¬ Recognised text := by
  rw [recognised_iff, Option.eq_none_iff_forall_ne_some, Prod.forall]
  simp only [ne_eq, lookup?_eq_some_iff]
  constructor
  · rintro h ⟨n, hn⟩
    exact h n _ ⟨hn, rfl⟩
  · rintro h n t ⟨hn, -⟩
    exact h ⟨n, hn⟩

/-- **Names are read by the same table.** -/
theorem parse_eq_ok_iff {text : String} {n : SettingName} : parse text = .ok n ↔ text = n.text := by
  rw [parse]
  cases h : lookup? text with
  | none =>
    refine iff_of_false (fun h => by cases h) ?_
    rintro rfl
    exact lookup?_eq_none_iff.mp h (recognised_iff.mpr ⟨n, rfl⟩)
  | some found =>
    obtain ⟨name, t⟩ := found
    obtain ⟨rfl, -⟩ := lookup?_eq_some_iff.mp h
    simp only [Except.ok.injEq]
    constructor
    · rintro rfl
      rfl
    · intro heq
      exact (Prod.mk.inj (Option.some.inj (h.symm.trans (lookup?_eq_some_iff.mpr ⟨heq, rfl⟩)))).1

theorem parse_eq_error_iff {text : String} :
    parse text = .error (unknownSettingMessage text) ↔ ¬ Recognised text := by
  rw [← lookup?_eq_none_iff, parse]
  cases lookup? text <;> simp

/-! ## Values -/

/-- The switch is on where the nearest integer is not zero; the range of a machine integer
does not matter. -/
theorem isOn_eq (v : Float) :
    isOn v = decide ((Binary.ofFloat v).whole (-2 ^ 63) (2 ^ 63 - 1) ≠ 0) := by
  have hnearest : RoundingScalar.nearest v = (Binary.ofFloat v).nearest := rfl
  rw [isOn, Binary.whole_eq_saturate (by norm_num) (by norm_num) (by norm_num) (by norm_num),
    hnearest, Binary.saturate]
  congr 1
  rw [eq_iff_iff]
  omega

theorem iterationLimit_eq (v : Float) :
    iterationLimit v = ((Binary.ofFloat v).whole 0 (2 ^ 32 - 1)).toNat := by
  have hnearest : RoundingScalar.nearest v = (Binary.ofFloat v).nearest := rfl
  have hpow : pow2 32 = 2 ^ 32 := rfl
  rw [iterationLimit, Binary.whole_eq_saturate (by norm_num) le_rfl (by norm_num) (by norm_num),
    hnearest, Binary.saturate, hpow]
  omega

theorem toSigned64_rounded (v : Float) : Binary.toSigned64 (Binary.rounded v) =
    (Binary.ofFloat v).whole (-2 ^ 63) (2 ^ 63 - 1) :=
  Binary.toWord_rounded _ _ v

theorem toUnsigned32_rounded (v : Float) : Binary.toUnsigned32 (Binary.rounded v) =
    (Binary.ofFloat v).whole 0 (2 ^ 32 - 1) :=
  Binary.toWord_rounded _ _ v

/-- **Converting and assigning** is giving the setting its value. -/
theorem set_transform (n : SettingName) (v : Float) (s : Settings Float) :
    n.set (n.transform.apply v) s = n.assign v s := by
  cases n with
  | polish => simp only [set, assign, transform, Transform.apply, toSigned64_rounded, isOn_eq]
  | maxIter =>
    simp only [set, assign, transform, Transform.apply, toUnsigned32_rounded, iterationLimit_eq]
  | _ => rfl

end SettingName

/-! ## The value given last -/

/-- The value given last under the name of a setting. -/
def lastGiven (pairs : List (String × Float)) (n : SettingName) : Option Float :=
  ((pairs.filter (·.1 = n.text)).getLast?).map (·.2)

theorem lastGiven_append (pairs : List (String × Float)) (p : String × Float) (n : SettingName) :
    lastGiven (pairs ++ [p]) n = if p.1 = n.text then some p.2 else lastGiven pairs n := by
  rw [lastGiven, List.filter_append]
  by_cases h : p.1 = n.text
  · simp [h]
  · simp [h, lastGiven]

/-- Another setting keeps its value, and a name that is not recognised changes none. -/
theorem lastGiven_append_text (pairs : List (String × Float)) (n : SettingName) (v : Float) :
    lastGiven (pairs ++ [(n.text, v)]) = Function.update (lastGiven pairs) n (some v) := by
  funext n'
  rw [lastGiven_append, Function.update_apply]
  have hiff : n.text = n'.text ↔ n' = n := by cases n <;> cases n' <;> decide
  simp only [hiff]

theorem lastGiven_append_of_not_recognised (pairs : List (String × Float)) {text : String}
    (v : Float) (h : ¬ SettingName.Recognised text) :
    lastGiven (pairs ++ [(text, v)]) = lastGiven pairs := by
  funext n
  rw [lastGiven_append, if_neg]
  rintro rfl
  exact h (SettingName.recognised_iff.mpr ⟨n, rfl⟩)

namespace Settings

/-- **What values choose:** seven fields take a value as it is, the switch and the iteration
limit are machine integers, rounded with halves away from zero. -/
def Changes.ofGiven (given : SettingName → Option Float) : Changes Float where
  rho := given .rho
  sigma := given .sigma
  alpha := given .alpha
  epsAbs := given .epsAbs
  epsRel := given .epsRel
  epsPrimInf := given .epsPrimInf
  epsDualInf := given .epsDualInf
  polish := (given .polish).map fun v =>
    (Binary.ofFloat v).whole (-2 ^ 63) (2 ^ 63 - 1) ≠ 0
  maxIter := (given .maxIter).map fun v => ((Binary.ofFloat v).whole 0 (2 ^ 32 - 1)).toNat

/-- The defaults, with polishing on, and what values choose. -/
def ofGiven (given : SettingName → Option Float) : Settings Float :=
  callDefault.change (.ofGiven given)

/-- **One more value** replaces what was given under its name. -/
theorem set_ofGiven (given : SettingName → Option Float) (n : SettingName) (v : Float) :
    n.set (n.transform.apply v) (ofGiven given) = ofGiven (Function.update given n (some v)) := by
  rw [SettingName.set_transform]
  cases n with
  | polish =>
    simp only [SettingName.assign, SettingName.isOn_eq]
    rfl
  | maxIter =>
    simp only [SettingName.assign, SettingName.iterationLimit_eq]
    rfl
  | _ => rfl

end Settings

/-! ## Lines on the stream -/

namespace TextStream

theorem writeAll_collecting (s : String) (pieces : List String) :
    collecting.writeAll s pieces = s ++ String.join pieces := by
  induction pieces generalizing s with
  | nil => simp [writeAll]
  | cons piece rest ih =>
    rw [writeAll, String.join_cons]
    split
    · rw [ih, ‹piece = ""›, String.empty_append]
    · exact (ih (s ++ piece)).trans String.append_assoc

theorem complain_collecting (s name : String) :
    collecting.complain s name = s ++ (unknownSettingMessage name ++ "\n") := by
  have hpieces : String.join ["Unknown setting parameter: [", name, "].", "\n"] =
      unknownSettingMessage name ++ "\n" := by
    simp only [String.join_cons, String.join_nil, String.append_empty, ← String.append_assoc]
    rfl
  rw [complain, writeAll_collecting, hpieces]

/-- **A line for each name,** in their order. -/
theorem foldl_complain_collecting (s : String) (names : List String) :
    names.foldl collecting.complain s =
      s ++ String.join (names.map fun name => unknownSettingMessage name ++ "\n") := by
  induction names generalizing s with
  | nil => simp
  | cons name names ih =>
    rw [List.foldl_cons, ih, complain_collecting, List.map_cons, String.join_cons,
      String.append_assoc]

end TextStream

/-! ## Pair by pair -/

/-- The names that are not recognised, each as often as it occurs. -/
def unrecognised (pairs : List (String × Float)) : List String :=
  (pairs.map (·.1)).filter fun text => ¬ SettingName.Recognised text

/-- Names are looked up alike. -/
theorem SettingName.ofText?_eq (text : String) : ofText? text = (lookup? text).map (·.1) := by
  cases h : lookup? text with
  | none =>
    rw [ofText?, Option.map_none, List.find?_eq_none]
    intro n hn htext
    refine lookup?_eq_none_iff.mp h (recognised_iff.mpr ⟨n, ?_⟩)
    simpa [eq_comm] using htext
  | some found =>
    obtain ⟨n, t⟩ := found
    rw [(lookup?_eq_some_iff.mp h).1, ofText?_text]
    rfl

theorem Settings.ofAssignments_append (pairs : List (Assignment Float)) (p : Assignment Float) :
    ofAssignments (pairs ++ [p]) = Assignment.apply (ofAssignments pairs) p := by
  rw [ofAssignments, List.foldl_append]
  rfl

namespace Resolution

variable {σ : Type}

/-- **Where resolving stands after some pairs.** -/
structure After (out : TextStream σ) (s : σ) (pairs : List (String × Float))
    (r : Resolution σ) : Prop where
  settings_eq : r.settings = .ofGiven (lastGiven pairs)
  assigned : r.settings = .ofAssignments r.taken.toList
  taken_eq : r.taken.toList = pairs.map fun p => .ofPair p.1 p.2
  stream_eq : r.stream = (unrecognised pairs).foldl out.complain s

variable {out : TextStream σ} {s : σ} {pairs : List (String × Float)} {r : Resolution σ}

/-- One more pair. -/
theorem After.step (h : After out s pairs r) (p : String × Float) :
    After out s (pairs ++ [p]) (r.step out p) := by
  obtain ⟨text, v⟩ := p
  rw [Resolution.step]
  dsimp only
  cases hlookup : SettingName.lookup? text with
  | some found =>
    obtain ⟨n, t⟩ := found
    obtain ⟨rfl, rfl⟩ := SettingName.lookup?_eq_some_iff.mp hlookup
    have hpair : Assignment.ofPair n.text v = .known n v := by
      rw [Assignment.ofPair, SettingName.ofText?_eq, hlookup]
      rfl
    have hrecognised : SettingName.Recognised n.text := SettingName.recognised_iff.mpr ⟨n, rfl⟩
    dsimp only
    refine ⟨?_, ?_, ?_, ?_⟩
    · rw [lastGiven_append_text, ← Settings.set_ofGiven, ← h.settings_eq]
    · rw [Array.toList_push, Settings.ofAssignments_append, ← h.assigned, Assignment.apply,
        SettingName.set_transform]
    · simp [h.taken_eq, hpair]
    · simp [unrecognised, hrecognised, h.stream_eq]
  | none =>
    have hnot := SettingName.lookup?_eq_none_iff.mp hlookup
    have hpair : Assignment.ofPair text v = .unknown text := by
      rw [Assignment.ofPair, SettingName.ofText?_eq, hlookup]
      rfl
    dsimp only
    refine ⟨?_, ?_, ?_, ?_⟩
    · rw [lastGiven_append_of_not_recognised _ _ hnot, ← h.settings_eq]
    · rw [Array.toList_push, Settings.ofAssignments_append, ← h.assigned, Assignment.apply]
    · simp [h.taken_eq, hpair]
    · simp [unrecognised, hnot, h.stream_eq]

/-- **All pairs.** -/
theorem after_foldl (out : TextStream σ) (s : σ) (pairs : List (String × Float)) :
    After out s pairs (pairs.foldl (Resolution.step out) (.initial s)) := by
  induction pairs using List.reverseRecOn with
  | nil => exact ⟨rfl, rfl, rfl, rfl⟩
  | append_singleton pairs p ih =>
    rw [List.foldl_append]
    exact ih.step p

end Resolution

/-! ## What is resolved -/

namespace Settings

variable {σ : Type} (names : Array String) (values : Array Float)

/-- **Resolving in one equation.** -/
theorem resolve_eq (out : TextStream σ) (s : σ) : resolve names values out s =
    if names.size = values.size then
      (.ok (.ofGiven (lastGiven (names.zip values).toList),
        (names.zip values).map fun p => .ofPair p.1 p.2),
        (unrecognised (names.zip values).toList).foldl out.complain s)
    else (.error (.lengthMismatch "setting values" names.size values.size), s) := by
  rw [resolve]
  by_cases hsize : names.size = values.size
  · have h := Resolution.after_foldl out s (names.zip values).toList
    rw [Array.foldl_toList] at h
    have htaken := h.taken_eq
    rw [← Array.toList_map, Array.toList_inj] at htaken
    rw [CallError.checkLength_eq_ok.mpr hsize.symm, if_pos hsize]
    dsimp only
    rw [h.settings_eq, h.stream_eq, htaken]
  · rw [CallError.checkLength, if_neg (Ne.symm hsize), if_neg hsize]

/-- What is given last is what counts where pairs are read first and taken afterwards. -/
theorem ofAssignments_eq (pairs : List (String × Float)) :
    ofAssignments (pairs.map fun p => .ofPair p.1 p.2) = ofGiven (lastGiven pairs) := by
  have h := Resolution.after_foldl TextStream.refusing () pairs
  rw [← h.taken_eq, ← h.assigned, h.settings_eq]

/-- **A call's settings** are resolved alike. -/
theorem resolve_eq_ofAssignments (out : TextStream σ) (s : σ) :
    (resolve names values out s).1 = (Assignment.ofArrays names values).map
      fun assigned => (.ofAssignments assigned, assigned.toArray) := by
  rw [resolve_eq, Assignment.ofArrays]
  by_cases hsize : names.size = values.size
  · have hpairs : List.zipWith Assignment.ofPair names.toList values.toList =
        (names.zip values).toList.map fun p => .ofPair p.1 p.2 := by
      rw [Array.toList_zip, List.zip, List.map_zipWith]
    rw [if_pos hsize, CallError.checkLength_eq_ok.mpr hsize.symm, hpairs]
    simp only [ok_bind, pure_eq_ok, Except.map, ofAssignments_eq]
    rw [← Array.toList_map, Array.toArray_toList]
  · rw [if_neg hsize, CallError.checkLength, if_neg (Ne.symm hsize)]
    rfl

/-- **Settings depend on what is given last,** and on nothing else. Resolving fails exactly where
names and values are not equally many, and then nothing is written. Otherwise each setting is
what its name was given last, or its default; the stream has a line for each name that is not
recognised, and whether it takes the line makes no difference. A call's settings are resolved
alike, and a name that is read alone is recognised in the same cases. -/
theorem resolve_reads_last (out : TextStream σ) (s : σ) :
    (resolve names values out s =
      if names.size = values.size then
        (.ok (.ofGiven (lastGiven (names.zip values).toList),
          (names.zip values).map fun p => .ofPair p.1 p.2),
          (unrecognised (names.zip values).toList).foldl out.complain s)
      else (.error (.lengthMismatch "setting values" names.size values.size), s)) ∧
    (resolve names values out s).1 = (Assignment.ofArrays names values).map
      (fun assigned => (.ofAssignments assigned, assigned.toArray)) ∧
    (∀ text, (unrecognised (names.zip values).toList).foldl TextStream.collecting.complain text =
      text ++ String.join ((unrecognised (names.zip values).toList).map fun name =>
        "Unknown setting parameter: [" ++ name ++ "]." ++ "\n")) ∧
    (∀ (τ : Type) (names' : Array String) (values' : Array Float) (out' : TextStream τ) (s' : τ),
      names.size = values.size → names'.size = values'.size →
      (∀ n, lastGiven (names'.zip values').toList n = lastGiven (names.zip values).toList n) →
      ∃ settings assigned assigned', (resolve names values out s).1 = .ok (settings, assigned) ∧
        (resolve names' values' out' s').1 = .ok (settings, assigned')) ∧
    ∀ text, (∀ n, SettingName.parse text = .ok n ↔ text = n.text) ∧
      (SettingName.parse text = .error (unknownSettingMessage text) ↔
        ¬ SettingName.Recognised text) := by
  refine ⟨resolve_eq names values out s, resolve_eq_ofAssignments names values out s,
    fun text => TextStream.foldl_complain_collecting text _, ?_,
    fun text => ⟨fun n => SettingName.parse_eq_ok_iff, SettingName.parse_eq_error_iff⟩⟩
  intro τ names' values' out' s' hsize hsize' hlast
  rw [resolve_eq, resolve_eq, if_pos hsize, if_pos hsize', funext hlast]
  exact ⟨_, _, _, rfl, rfl⟩

/-- Three settings, two of them given twice, among names that no setting has. -/
def mixed : Array String × Array Float :=
  (#["RHO", "FOO", "MAX_ITER", "RHO", "POLISH", "rho", "MAX_ITER"],
    #[0.5, 1, 0.0 / 0.0, 0.9, -0.5, 2, 99.5])

/-- The three settings with what they are given last, in another order. -/
def plain : Array String × Array Float := (#["POLISH", "MAX_ITER", "RHO"], #[-0.5, 99.5, 0.9])

/-- What they are given last. -/
def plainGiven : SettingName → Option Float
  | .rho => some 0.9
  | .maxIter => some 99.5
  | .polish => some (-0.5)
  | _ => none

theorem toList_mixed : (mixed.1.zip mixed.2).toList =
    [("RHO", 0.5), ("FOO", 1), ("MAX_ITER", 0.0 / 0.0), ("RHO", 0.9), ("POLISH", -0.5),
      ("rho", 2), ("MAX_ITER", 99.5)] := by
  rw [Array.toList_zip]
  rfl

theorem lastGiven_mixed : lastGiven (mixed.1.zip mixed.2).toList = plainGiven := by
  rw [toList_mixed]
  funext n
  cases n <;> rfl

theorem lastGiven_plain : lastGiven (plain.1.zip plain.2).toList = plainGiven := by
  rw [Array.toList_zip]
  funext n
  cases n <;> rfl

theorem ofGiven_plain :
    ofGiven plainGiven = { callDefault with rho := 0.9, maxIter := 100, polish := true } := by
  have hlimit : (Binary.ofFloat 99.5).whole 0 (2 ^ 32 - 1) = 100 := by decide +kernel
  have hswitch : (Binary.ofFloat (-0.5)).whole (-2 ^ 63) (2 ^ 63 - 1) = -1 := by decide +kernel
  simp only [ofGiven, Settings.change, Changes.ofGiven, plainGiven, Option.map_some, hlimit,
    hswitch]
  rfl

theorem resolve_reads_last_mixed :
    (∃ assigned, resolve mixed.1 mixed.2 .collecting "" =
      (.ok ({ callDefault with rho := 0.9, maxIter := 100, polish := true }, assigned),
        "Unknown setting parameter: [FOO].\nUnknown setting parameter: [rho].\n")) ∧
    (∃ assigned, (resolve plain.1 plain.2 .refusing ()).1 =
      .ok ({ callDefault with rho := 0.9, maxIter := 100, polish := true }, assigned)) ∧
    resolve #["RHO"] #[] .collecting "" = (.error (.lengthMismatch "setting values" 1 0), "") := by
  obtain ⟨hmixed, -, hlines, hsame, -⟩ := resolve_reads_last mixed.1 mixed.2 .collecting ""
  have hunrecognised : unrecognised (mixed.1.zip mixed.2).toList = ["FOO", "rho"] := by
    rw [toList_mixed]
    rfl
  rw [if_pos (show mixed.1.size = mixed.2.size from rfl), hlines, hunrecognised, lastGiven_mixed,
    ofGiven_plain] at hmixed
  obtain ⟨settings, assigned, assigned', h, h'⟩ := hsame Unit plain.1 plain.2 .refusing () rfl rfl
    fun n => by rw [lastGiven_mixed, lastGiven_plain]
  refine ⟨⟨_, hmixed⟩, ⟨assigned', ?_⟩, (resolve_reads_last #["RHO"] #[] .collecting "").1⟩
  rw [hmixed] at h
  rw [h', (Prod.mk.inj (Except.ok.inj h)).1]

end Settings

end SplitQP
