import SplitQP.Proofs.Json.Text
import SplitQP.Proofs.Json.Numeral
/-!
# Values of known kinds are read as they were written

A double is read as itself if it is finite; what is written in place of any
other is not read as a double (`answers_float`). Integers of 64 bits and
strings are read as themselves. A record is read member by member in the
order in which it was written, each by the field of its name, and is
complete then (`answers_record`).
-/

namespace SplitQP

namespace Reader

/-! ## Numbers -/

open Numeral

variable {l : Literal} {rest : List Char}

/-- A number begins with a sign or a digit. -/
theorem exists_head (h : l.WellFormed) :
    ∃ c cs, l.text = c :: cs ∧ (c = '-' ∨ c.isDigit = true) := by
  obtain ⟨d, ds, hds⟩ := List.exists_cons_of_ne_nil h.whole_ne_nil
  rw [Literal.text, hds]
  cases l.negative with
  | false => exact ⟨d, _, rfl, .inr (h.whole_digits d (by rw [hds]; exact List.mem_cons_self))⟩
  | true => exact ⟨'-', _, rfl, .inl rfl⟩

/-- So it is neither blank nor the end of a list. -/
theorem not_isBlank {c : Char} (h : c = '-' ∨ c.isDigit = true) : isBlank c = false ∧ c ≠ ']' := by
  rcases h with rfl | h
  · decide
  · constructor
    · by_contra hblank
      simp only [isBlank, Bool.not_eq_false, Bool.or_eq_true, decide_eq_true_iff] at hblank
      obtain ((rfl | rfl) | rfl) | rfl := hblank <;> exact absurd h (by decide)
    · rintro rfl
      exact absurd h (by decide)

theorem begins_text (h : l.WellFormed) : Begins l.text := by
  obtain ⟨c, cs, htext, hc⟩ := exists_head h
  exact ⟨c, cs, htext, not_isBlank hc⟩

theorem answers_numeral (h : l.WellFormed)
    (hvalue : (l.numeral.toInt?.isSome || l.numeral.toFloat?.isSome) = true) :
    Answers numeral l.text (.ok l.numeral) := by
  intro rest hrest
  obtain ⟨c, cs, htext, hc⟩ := exists_head h
  have hgrammar := grammar_text h hrest
  rw [htext, List.cons_append] at hgrammar ⊢
  rw [numeral, bind_of_ok (peekOr_cons (not_isBlank hc).1 _ _), if_pos hc, Numeral.read,
    bind_of_ok hgrammar, if_pos hvalue]
  rfl

/-- **A finite double is read as itself.** -/
theorem answers_float_of_isFinite {x : Float} (hx : x.isFinite = true) :
    Answers float (write x) (.ok x) := by
  obtain ⟨l, ⟨hwf, -, hvalue⟩, htext⟩ := exists_literal hx
  intro rest hrest
  rw [htext, float, bind_of_ok (answers_numeral hwf (by simp [hvalue]) rest hrest), hvalue]
  rfl

/-- What is written in place of a double that is not finite is not read as a double. -/
theorem answers_float_null : Answers float "null".toList (.error .mistyped) := by
  intro rest _
  have hword : word "ull".toList ("ull".toList ++ rest) = .ok ((), rest) := word_append _ _
  have hwrong : numeral ("null".toList ++ rest) = .error .mistyped := by
    show numeral ('n' :: ("ull".toList ++ rest)) = _
    rw [numeral, bind_of_ok (peekOr_cons rfl _ _), if_neg (by decide), wrongKind,
      if_neg (by decide)]
    simp only
    rw [bind_of_ok advance_cons, bind_of_ok hword]
    rfl
  exact bind_of_error hwrong

/-- What becomes of a double. -/
def kept (x : Float) : Except JsonError Float := if x.isFinite then .ok x else .error .mistyped

/-- **A double is read as itself if it is finite,** and not at all otherwise. -/
theorem answers_float (x : Float) : Answers float (write x) (kept x) := by
  rw [kept]
  split
  · rename_i hx
    exact answers_float_of_isFinite hx
  · rename_i hx
    rw [write_of_not_isFinite (Bool.eq_false_of_not_eq_true hx)]
    exact answers_float_null

theorem begins_write (x : Float) : Begins (write x) := by
  by_cases hx : x.isFinite = true
  · obtain ⟨l, hl, htext⟩ := exists_literal hx
    rw [htext]
    exact begins_text hl.wellFormed
  · rw [write_of_not_isFinite (Bool.eq_false_of_not_eq_true hx)]
    exact ⟨'n', _, rfl, by decide, by decide⟩

/-- An integer of 64 bits. -/
def IsInt64 (i : ℤ) : Prop := -2 ^ 63 ≤ i ∧ i < 2 ^ 63

instance (i : ℤ) : Decidable (IsInt64 i) := inferInstanceAs (Decidable (_ ∧ _))

theorem answers_int64 {i : ℤ} (hi : IsInt64 i) : Answers int64 (writeInt i) (.ok i) := by
  have hvalue : (Literal.ofInt i).numeral.toInt? = some i :=
    toInt?_ofInt hi.1 (hi.2.trans (by norm_num))
  intro rest hrest
  have hrange : -(pow2 63 : ℤ) ≤ i ∧ i ≤ (pow2 63 : ℤ) - 1 := by
    rw [pow2_eq]
    obtain ⟨hlow, hhigh⟩ := hi
    push_cast
    omega
  rw [← text_ofInt, int64, int,
    bind_of_ok (answers_numeral (wellFormed_ofInt i) (by simp [hvalue]) rest hrest), hvalue]
  simp only [if_pos hrange]
  rfl

theorem begins_writeInt (i : ℤ) : Begins (writeInt i) := by
  rw [← text_ofInt]
  exact begins_text (wellFormed_ofInt i)

/-! ## Strings -/

theorem answers_string (s : String) : Answers string (JsonText.write s) (.ok s) := by
  intro rest _
  rw [JsonText.write, List.cons_append, List.cons_append, List.append_assoc,
    List.singleton_append, string, bind_of_ok (peekOr_cons rfl _ _)]
  simp only
  rw [bind_of_ok advance_cons]
  exact JsonText.read_escape s rest

theorem begins_writeString (s : String) : Begins (JsonText.write s) :=
  ⟨'"', _, rfl, by decide, by decide⟩

/-! ## Arrays -/

variable {α β : Type} {item : Reader β} {write : α → List Char} {value : α → Except JsonError β}

theorem answers_array {xs : Array α}
    (h : ∀ x ∈ xs, Begins (write x) ∧ Answers item (write x) (value x)) :
    Answers (array item) (JsonWriter.list (xs.toList.map write)) (xs.mapM value) := by
  intro rest hrest
  have hitems : ∀ x ∈ xs.toList, Begins (write x) ∧ Answers item (write x) (value x) :=
    fun x hx => h x (Array.mem_toList_iff.mp hx)
  have hlist := answers_list hitems rest hrest
  rw [Array.mapM_eq_mapM_toList]
  show (list item >>= fun bs => pure bs.toArray) _ = _
  cases hvalues : xs.toList.mapM value with
  | error e =>
    rw [hvalues] at hlist
    rw [bind_of_error hlist]
    rfl
  | ok bs =>
    rw [hvalues] at hlist
    rw [bind_of_ok hlist]
    rfl

/-! ## Records -/

variable {σ : Type}

/-- A member of a record: its field, its text, and what is made of that. -/
structure Member (σ : Type) where
  field : FieldReader σ
  text : List Char
  outcome : σ → Except JsonError σ

/-- The field reads the text as said. -/
def Member.Faithful (m : Member σ) : Prop := ∀ s, Answers (m.field.read s) m.text (m.outcome s)

/-- A member as it is written. -/
def Member.written (m : Member σ) : List Char := JsonText.write m.field.name ++ ':' :: m.text

theorem hasMember_close (first : Bool) (rest : List Char) :
    hasMember first ('}' :: rest) = .ok (false, '}' :: rest) := by
  rw [hasMember, bind_of_ok (peekOr_cons rfl _ _), if_pos rfl]
  rfl

theorem hasMember_first (cs : List Char) : hasMember true ('"' :: cs) = .ok (true, '"' :: cs) := by
  rw [hasMember, bind_of_ok (peekOr_cons rfl _ _), if_neg (by decide), if_pos rfl, if_pos rfl]
  rfl

theorem hasMember_comma (cs : List Char) :
    hasMember false (',' :: '"' :: cs) = .ok (true, '"' :: cs) := by
  rw [hasMember, bind_of_ok (peekOr_cons rfl _ _), if_neg (by decide), if_neg (by decide),
    if_pos rfl, bind_of_ok advance_cons, bind_of_ok (peekOr_cons rfl _ _), if_pos rfl]
  rfl

theorem colon_cons (rest : List Char) : colon (':' :: rest) = .ok ((), rest) := by
  rw [colon, bind_of_ok (peekOr_cons rfl _ _), if_pos rfl]
  rfl

variable {fields : List (FieldReader σ)} {m : Member σ} {s : RecordState σ}

/-- The state after a member. -/
def Member.step (s : RecordState σ) (m : Member σ) : Except JsonError (RecordState σ) :=
  (m.outcome s.value).map (⟨·, m.field.name :: s.seen⟩)

/-- **A member is read by its field,** if it is the first of its name. -/
theorem member_written (hm : m.Faithful)
    (hfind : fields.find? (·.name = m.field.name) = some m.field)
    (hseen : m.field.name ∉ s.seen) (hrest : Ends rest) :
    member fields s (m.written ++ rest) = (m.step s).map (·, rest) := by
  have hread := hm s.value rest hrest
  rw [Member.written, JsonText.write]
  simp only [List.cons_append, List.append_assoc, List.nil_append]
  rw [member, bind_of_ok advance_cons, bind_of_ok (JsonText.read_escape _ _), hfind]
  simp only [if_neg hseen]
  rw [bind_of_ok (colon_cons _), RecordState.read, Member.step]
  cases houtcome : m.outcome s.value with
  | error e =>
    rw [houtcome] at hread
    rw [bind_of_error hread]
    rfl
  | ok v =>
    rw [houtcome] at hread
    rw [bind_of_ok hread]
    rfl

/-- A member can be read here. -/
structure Member.Readable (fields : List (FieldReader σ)) (seen : List String) (m : Member σ) :
    Prop where
  faithful : m.Faithful
  find? : fields.find? (·.name = m.field.name) = some m.field
  fresh : m.field.name ∉ seen

/-- One member and those behind it. -/
theorem members_of_hasMember {fuel : ℕ} {first : Bool} {text : List Char} {ms : List (Member σ)}
    (hhas : hasMember first text =
      .ok (true, m.written ++ (behind (ms.map Member.written) ++ '}' :: rest)))
    (hm : m.Readable fields s.seen)
    (hms : ∀ s', m.step s = .ok s' →
      members fields fuel false s' (behind (ms.map Member.written) ++ '}' :: rest) =
        (ms.foldlM Member.step s').map (·, '}' :: rest)) :
    members fields (fuel + 1) first s text =
      ((m :: ms).foldlM Member.step s).map (·, '}' :: rest) := by
  have hmember := member_written hm.faithful hm.find? hm.fresh
    (ends_behind (ms.map Member.written) (ends_brace rest))
  rw [members, bind_of_ok hhas, if_pos rfl, List.foldlM_cons]
  cases hstep : m.step s with
  | error e =>
    rw [hstep] at hmember
    exact bind_of_error hmember
  | ok s' =>
    rw [hstep] at hmember
    exact (bind_of_ok hmember).trans (hms s' hstep)

theorem seen_of_step {s' : RecordState σ} (h : m.step s = .ok s') :
    s'.seen = m.field.name :: s.seen := by
  rw [Member.step] at h
  cases houtcome : m.outcome s.value with
  | error e =>
    rw [houtcome] at h
    cases h
  | ok v =>
    rw [houtcome] at h
    cases h
    rfl

/-- A member begins with its name. -/
theorem Member.exists_written (m : Member σ) : ∃ cs, m.written = '"' :: cs :=
  ⟨_, List.cons_append⟩

/-- What could be read before a member of another name can be read behind it. -/
theorem Member.Readable.step {ms : List (Member σ)} {m' : Member σ} {s' : RecordState σ}
    (h : m'.Readable fields s.seen) (hname : m.field.name ∉ ms.map (·.field.name)) (hm' : m' ∈ ms)
    (hstep : m.step s = .ok s') : m'.Readable fields s'.seen := by
  refine ⟨h.faithful, h.find?, ?_⟩
  rw [seen_of_step hstep, List.mem_cons, not_or]
  refine ⟨fun heq => hname ?_, h.fresh⟩
  have hmem := List.mem_map_of_mem (f := (·.field.name)) hm'
  rwa [heq] at hmem

/-- The members behind the first. -/
theorem members_behind {ms : List (Member σ)} {fuel : ℕ} (hfuel : ms.length < fuel)
    (hnames : (ms.map (·.field.name)).Nodup) (h : ∀ m ∈ ms, m.Readable fields s.seen)
    (rest : List Char) :
    members fields fuel false s (behind (ms.map Member.written) ++ '}' :: rest) =
      (ms.foldlM Member.step s).map (·, '}' :: rest) := by
  induction ms generalizing fuel s with
  | nil =>
    cases fuel with
    | zero => cases hfuel
    | succ fuel => exact bind_of_ok (hasMember_close false rest)
  | cons m ms ih =>
    cases fuel with
    | zero => cases hfuel
    | succ fuel =>
      obtain ⟨hname, hnames⟩ := List.nodup_cons.mp hnames
      refine members_of_hasMember ?_ (h m List.mem_cons_self) fun s' hstep => ?_
      · obtain ⟨cs, hwritten⟩ := m.exists_written
        rw [List.map_cons, behind, List.flatMap_cons, hwritten]
        simp only [List.cons_append, List.append_assoc]
        exact hasMember_comma _
      exact ih (Nat.lt_of_succ_lt_succ hfuel) hnames fun m' hm' =>
        (h m' (List.mem_cons_of_mem m hm')).step hname hm' hstep

/-- All members, with as much fuel as there is text. -/
theorem members_commas {ms : List (Member σ)} (hnames : (ms.map (·.field.name)).Nodup)
    (h : ∀ m ∈ ms, m.Readable fields []) (start : σ) (rest : List Char) :
    let text := JsonWriter.commas (ms.map Member.written) ++ '}' :: rest
    members fields (text.length + 1) true ⟨start, []⟩ text =
      (ms.foldlM Member.step ⟨start, []⟩).map (·, '}' :: rest) := by
  cases ms with
  | nil => exact bind_of_ok (hasMember_close true rest)
  | cons m ms =>
    obtain ⟨cs, hwritten⟩ := m.exists_written
    have hlength := length_le_behind (ms.map Member.written)
    rw [List.length_map] at hlength
    simp only [List.map_cons, commas_cons, List.append_assoc]
    refine members_of_hasMember ?_ (h m List.mem_cons_self) fun s' hstep => ?_
    · rw [hwritten]
      exact hasMember_first _
    · obtain ⟨hname, hnames⟩ := List.nodup_cons.mp hnames
      refine members_behind ?_ hnames (fun m' hm' => ?_) rest
      · rw [hwritten, List.length_append, List.length_append, List.length_cons]
        omega
      · exact (h m' (List.mem_cons_of_mem m hm')).step hname hm' hstep

/-- The names seen in the end. -/
theorem foldlM_step (ms : List (Member σ)) (s : RecordState σ) :
    ms.foldlM Member.step s = (ms.foldlM (fun v (m : Member σ) => m.outcome v) s.value).map
      (⟨·, (ms.map (·.field.name)).reverse ++ s.seen⟩) := by
  induction ms generalizing s with
  | nil => rfl
  | cons m ms ih =>
    rw [List.foldlM_cons, List.foldlM_cons, Member.step]
    cases houtcome : m.outcome s.value with
    | error e => rfl
    | ok v =>
      show ms.foldlM Member.step ⟨v, m.field.name :: s.seen⟩ = _
      rw [ih, List.map_cons, List.reverse_cons, List.append_assoc]
      rfl

/-- A field is found by its name. -/
theorem find?_of_mem {ms : List (Member σ)} (hnames : (ms.map (·.field.name)).Nodup)
    (hm : m ∈ ms) : (ms.map (·.field)).find? (·.name = m.field.name) = some m.field := by
  induction ms with
  | nil => cases hm
  | cons m' ms ih =>
    obtain ⟨hname, hnames⟩ := List.nodup_cons.mp hnames
    rw [List.map_cons, List.find?_cons]
    rcases List.mem_cons.mp hm with rfl | hm
    · simp
    · have hne : m'.field.name ≠ m.field.name := fun heq => by
        have hmem := List.mem_map_of_mem (f := (·.field.name)) hm
        rw [← heq] at hmem
        exact hname hmem
      simp only [decide_eq_false hne]
      exact ih hnames hm

theorem record_members (ms : List (Member σ)) :
    JsonWriter.record (ms.map fun m => (m.field.name, m.text)) =
      '{' :: JsonWriter.commas (ms.map Member.written) ++ ['}'] := by
  rw [JsonWriter.record, List.map_map]
  rfl

/-- **A record is read as its members are,** in the order in which they are written. -/
theorem answers_record {ms : List (Member σ)} (hnames : (ms.map (·.field.name)).Nodup)
    (h : ∀ m ∈ ms, m.Faithful) (start : σ) :
    Answers (record (ms.map (·.field)) true start)
      (JsonWriter.record (ms.map fun m => (m.field.name, m.text)))
      (ms.foldlM (fun v (m : Member σ) => m.outcome v) start) := by
  intro rest _
  have hreadable : ∀ m ∈ ms, m.Readable (ms.map (·.field)) [] := fun m hm =>
    ⟨h m hm, find?_of_mem hnames hm, List.not_mem_nil⟩
  have hmembers := members_commas hnames hreadable start rest
  rw [record_members]
  simp only [List.cons_append, List.append_assoc, List.nil_append]
  rw [record, bind_of_ok (peekOr_cons rfl _ _)]
  simp only
  rw [bind_of_ok advance_cons, bind_of_ok (rfl : (get : Reader _) _ = .ok (_, _))]
  rw [foldlM_step] at hmembers
  cases houtcome : ms.foldlM (fun v (m : Member σ) => m.outcome v) start with
  | error e =>
    rw [houtcome] at hmembers
    rw [bind_of_error hmembers]
    rfl
  | ok v =>
    rw [houtcome] at hmembers
    have hcomplete : (ms.map (·.field)).all
        (·.name ∈ (ms.map (·.field.name)).reverse ++ ([] : List String)) = true := by
      rw [List.all_eq_true]
      intro f hf
      obtain ⟨m, hm, rfl⟩ := List.mem_map.mp hf
      rw [List.append_nil, decide_eq_true_iff, List.mem_reverse]
      exact List.mem_map_of_mem hm
    rw [bind_of_ok hmembers]
    simp only [if_true, checkComplete, hcomplete]
    rfl

end Reader

end SplitQP
