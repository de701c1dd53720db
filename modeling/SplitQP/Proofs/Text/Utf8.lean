import Mathlib.Data.Nat.Notation
import Mathlib.Tactic.Common
import SplitQP.Text.Utf8
/-!
# Text and its bytes

The reader of bytes is right: the bytes of a text are read as that text
(`decodeLossy_toUTF8`), and bytes that are read without a replacement are
the bytes of the text they are read as (`decode?_eq_some_iff`). Bytes that
are no text are therefore read with a replacement character in them
(`replacement_mem_decodeLossy`).
-/

namespace SplitQP

namespace Utf8

variable {b k low high : ℕ} {done : List (Option Char)}

/-! ## Lead bytes -/

theorem lead_one (h : b < 0x80) : lead b = some (0, 0, 0) := by
  rw [lead, if_pos h]

theorem lead_two (hlow : 0xC2 ≤ b) (hhigh : b < 0xE0) : lead b = some (1, 0x80, 0xBF) := by
  rw [lead, if_neg (by omega), if_neg (by omega), if_pos hhigh]

theorem lead_three (hlow : 0xE0 ≤ b) (hhigh : b < 0xF0) :
    lead b = some (2, if b = 0xE0 then 0xA0 else 0x80, if b = 0xED then 0x9F else 0xBF) := by
  grind [lead]

theorem lead_four (hlow : 0xF0 ≤ b) (hhigh : b ≤ 0xF4) :
    lead b = some (3, if b = 0xF0 then 0x90 else 0x80, if b = 0xF4 then 0x8F else 0xBF) := by
  grind [lead]

/-- **Every lead byte** is one of these. -/
theorem lead_cases (h : lead b = some (k, low, high)) :
    (b < 0x80 ∧ k = 0) ∨ (0xC2 ≤ b ∧ b < 0xE0 ∧ k = 1) ∨ (0xE0 ≤ b ∧ b < 0xF0 ∧ k = 2) ∨
      (0xF0 ≤ b ∧ b ≤ 0xF4 ∧ k = 3) := by
  rw [lead] at h
  split_ifs at h <;> cases h <;> omega

/-! ## One byte -/

namespace Reading

theorem fresh_of_one (h : lead b = some (0, low, high)) :
    fresh done b = ⟨some (Char.ofNat b) :: done, none⟩ := by
  rw [fresh, start, h]
  rfl

theorem fresh_of_lead (h : lead b = some (k + 1, low, high)) :
    fresh done b = ⟨done, some ⟨k + 1, low, high, b % pow2 (6 - (k + 1))⟩⟩ := by
  rw [fresh, start, h]
  rfl

theorem fresh_of_none (h : lead b = none) : fresh done b = ⟨none :: done, none⟩ := by
  rw [fresh, start, h]

variable {v : ℕ} {c : UInt8}

/-- A byte where a character may start. -/
theorem step_none : step ⟨done, none⟩ c = fresh done c.toNat := rfl

/-- The last byte of a character. -/
theorem step_last (hc : low ≤ c.toNat ∧ c.toNat ≤ high) :
    step ⟨done, some ⟨1, low, high, v⟩⟩ c =
      ⟨some (Char.ofNat (v * 64 + c.toNat % 64)) :: done, none⟩ := by
  rw [step]
  exact if_pos hc

/-- A byte within a character. -/
theorem step_within (hc : low ≤ c.toNat ∧ c.toNat ≤ high) :
    step ⟨done, some ⟨k + 2, low, high, v⟩⟩ c =
      ⟨done, some ⟨k + 1, 0x80, 0xBF, v * 64 + c.toNat % 64⟩⟩ := by
  rw [step]
  exact if_pos hc

/-- A byte that breaks a character off. -/
theorem step_broken {p : Partial} (hc : ¬ (p.low ≤ c.toNat ∧ c.toNat ≤ p.high)) :
    step ⟨done, some p⟩ c = fresh (none :: done) c.toNat := by
  rw [step]
  exact if_neg hc

end Reading

/-! ## Characters as bytes -/

theorem utf8EncodeChar_one {c : Char} (h : c.toNat < 0x80) :
    String.utf8EncodeChar c = [UInt8.ofNat c.toNat] := if_pos (by omega : c.toNat ≤ 0x7F)

theorem utf8EncodeChar_two {c : Char} (hlow : 0x80 ≤ c.toNat) (hhigh : c.toNat < 0x800) :
    String.utf8EncodeChar c =
      [UInt8.ofNat (c.toNat / 64 % 0x20 + 0xC0), UInt8.ofNat (c.toNat % 0x40 + 0x80)] :=
  (if_neg (by omega : ¬ c.toNat ≤ 0x7F)).trans (if_pos (by omega : c.toNat ≤ 0x7FF))

theorem utf8EncodeChar_three {c : Char} (hlow : 0x800 ≤ c.toNat) (hhigh : c.toNat < 0x10000) :
    String.utf8EncodeChar c = [UInt8.ofNat (c.toNat / 4096 % 0x10 + 0xE0),
      UInt8.ofNat (c.toNat / 64 % 0x40 + 0x80), UInt8.ofNat (c.toNat % 0x40 + 0x80)] :=
  (if_neg (by omega : ¬ c.toNat ≤ 0x7F)).trans ((if_neg (by omega : ¬ c.toNat ≤ 0x7FF)).trans
    (if_pos (by omega : c.toNat ≤ 0xFFFF)))

theorem utf8EncodeChar_four {c : Char} (hlow : 0x10000 ≤ c.toNat) :
    String.utf8EncodeChar c = [UInt8.ofNat (c.toNat / 262144 % 0x08 + 0xF0),
      UInt8.ofNat (c.toNat / 4096 % 0x40 + 0x80), UInt8.ofNat (c.toNat / 64 % 0x40 + 0x80),
      UInt8.ofNat (c.toNat % 0x40 + 0x80)] :=
  (if_neg (by omega : ¬ c.toNat ≤ 0x7F)).trans ((if_neg (by omega : ¬ c.toNat ≤ 0x7FF)).trans
    (if_neg (by omega : ¬ c.toNat ≤ 0xFFFF)))

/-- The character with a given value. -/
theorem toNat_ofNat {n : ℕ} (h : n < 0xD800 ∨ 0xDFFF < n ∧ n < 0x110000) :
    (Char.ofNat n).toNat = n := by
  rw [Char.ofNat, dif_pos h]
  rfl

/-! ## Characters are read -/

/-- **The bytes of a character are read as that character.** -/
theorem foldl_utf8EncodeChar (c : Char) :
    (String.utf8EncodeChar c).foldl Reading.step ⟨done, none⟩ = ⟨some c :: done, none⟩ := by
  have hvalid : c.toNat < 0xD800 ∨ 0xDFFF < c.toNat ∧ c.toNat < 0x110000 := c.valid
  have hc : ∀ v, v = c.toNat → Char.ofNat v = c := by
    rintro _ rfl
    exact Char.ofNat_toNat c
  have hbyte : ∀ n, n < 256 → (UInt8.ofNat n).toNat = n := fun n hn =>
    UInt8.toNat_ofNat_of_lt' hn
  -- as many bytes as the value asks for
  by_cases hone : c.toNat < 0x80
  · rw [utf8EncodeChar_one hone, List.foldl_cons, Reading.step_none, hbyte _ (by omega),
      Reading.fresh_of_one (lead_one hone), List.foldl_nil, hc _ rfl]
  by_cases htwo : c.toNat < 0x800
  · have hpow : pow2 (6 - (0 + 1)) = 32 := rfl
    rw [utf8EncodeChar_two (by omega) htwo, List.foldl_cons, Reading.step_none,
      hbyte _ (by omega), Reading.fresh_of_lead (lead_two (by omega) (by omega)), List.foldl_cons,
      Reading.step_last (by rw [hbyte _ (by omega)]; omega), List.foldl_nil,
      hbyte _ (by omega), hpow, hc _ (by omega)]
  by_cases hthree : c.toNat < 0x10000
  · have hpow : pow2 (6 - (1 + 1)) = 16 := rfl
    rw [utf8EncodeChar_three (by omega) hthree, List.foldl_cons, Reading.step_none,
      hbyte _ (by omega), Reading.fresh_of_lead (lead_three (by omega) (by omega)),
      List.foldl_cons, Reading.step_within (by rw [hbyte _ (by omega)]; split_ifs <;> omega),
      List.foldl_cons, Reading.step_last (by rw [hbyte _ (by omega)]; omega), List.foldl_nil,
      hbyte _ (by omega), hbyte _ (by omega), hpow, hc _ (by omega)]
  · have hpow : pow2 (6 - (2 + 1)) = 8 := rfl
    rw [utf8EncodeChar_four (by omega), List.foldl_cons, Reading.step_none,
      hbyte _ (by omega), Reading.fresh_of_lead (lead_four (by omega) (by omega)),
      List.foldl_cons, Reading.step_within (by rw [hbyte _ (by omega)]; split_ifs <;> omega),
      List.foldl_cons, Reading.step_within (by rw [hbyte _ (by omega)]; omega), List.foldl_cons,
      Reading.step_last (by rw [hbyte _ (by omega)]; omega), List.foldl_nil,
      hbyte _ (by omega), hbyte _ (by omega), hbyte _ (by omega), hpow, hc _ (by omega)]

theorem foldl_flatMap_utf8EncodeChar (cs : List Char) :
    (cs.flatMap String.utf8EncodeChar).foldl Reading.step ⟨done, none⟩ =
      ⟨(cs.map some).reverse ++ done, none⟩ := by
  induction cs generalizing done with
  | nil => rfl
  | cons c cs ih =>
    rw [List.flatMap_cons, List.foldl_append, foldl_utf8EncodeChar, ih, List.map_cons,
      List.reverse_cons, List.append_assoc, List.singleton_append]

/-! ## Nothing else is read as a character -/

/-- **A character in the making,** and the bytes it has so far. -/
inductive Begun : Partial → List UInt8 → Prop
  | lead {b : UInt8} {k low high : ℕ} : lead b.toNat = some (k + 1, low, high) →
      Begun ⟨k + 1, low, high, b.toNat % pow2 (6 - (k + 1))⟩ [b]
  | within {k low high v : ℕ} {bytes : List UInt8} {b : UInt8} :
      Begun ⟨k + 2, low, high, v⟩ bytes → low ≤ b.toNat ∧ b.toNat ≤ high →
      Begun ⟨k + 1, 0x80, 0xBF, v * 64 + b.toNat % 64⟩ (bytes ++ [b])

/-- No character needs more than three bytes after its first. -/
theorem Begun.needed_le {p : Partial} {bytes : List UInt8} (h : Begun p bytes) : p.needed ≤ 3 := by
  induction h with
  | lead h => have hcases := lead_cases h; dsimp only; omega
  | within _ _ ih => dsimp only at ih ⊢; omega

/-- Where the number of a byte comes back, so does the byte. -/
theorem ofNat_eq {n : ℕ} {b : UInt8} (h : n = b.toNat) : UInt8.ofNat n = b := by
  rw [h, UInt8.ofNat_toNat]

/-- Two bytes in their ranges are those of the character they make. -/
theorem two_eq_utf8EncodeChar {b₀ b : UInt8} (h₀ : 0xC2 ≤ b₀.toNat ∧ b₀.toNat < 0xE0)
    (h : 0x80 ≤ b.toNat ∧ b.toNat ≤ 0xBF) :
    [b₀, b] = String.utf8EncodeChar (Char.ofNat (b₀.toNat % 32 * 64 + b.toNat % 64)) := by
  have hn := toNat_ofNat (n := b₀.toNat % 32 * 64 + b.toNat % 64) (.inl (by omega))
  rw [utf8EncodeChar_two (by omega) (by omega), hn, ofNat_eq (b := b₀) (by omega),
    ofNat_eq (b := b) (by omega)]

/-- So are three: the second one keeps away from surrogates and from what two bytes make. -/
theorem three_eq_utf8EncodeChar {b₀ b₁ b : UInt8} (h₀ : 0xE0 ≤ b₀.toNat ∧ b₀.toNat < 0xF0)
    (h₁ : (if b₀.toNat = 0xE0 then 0xA0 else 0x80) ≤ b₁.toNat ∧
      b₁.toNat ≤ if b₀.toNat = 0xED then 0x9F else 0xBF)
    (h : 0x80 ≤ b.toNat ∧ b.toNat ≤ 0xBF) :
    [b₀, b₁, b] = String.utf8EncodeChar
      (Char.ofNat ((b₀.toNat % 16 * 64 + b₁.toNat % 64) * 64 + b.toNat % 64)) := by
  have hrange : 0x80 ≤ b₁.toNat ∧ b₁.toNat ≤ 0xBF ∧ (b₀.toNat = 0xE0 → 0xA0 ≤ b₁.toNat) ∧
      (b₀.toNat = 0xED → b₁.toNat ≤ 0x9F) := by
    split_ifs at h₁ <;> omega
  have hn := toNat_ofNat
    (n := (b₀.toNat % 16 * 64 + b₁.toNat % 64) * 64 + b.toNat % 64) (by omega)
  rw [utf8EncodeChar_three (by omega) (by omega), hn, ofNat_eq (b := b₀) (by omega),
    ofNat_eq (b := b₁) (by omega), ofNat_eq (b := b) (by omega)]

/-- So are four: the second one keeps away from what three bytes make and below the last
character there is. -/
theorem four_eq_utf8EncodeChar {b₀ b₁ b₂ b : UInt8} (h₀ : 0xF0 ≤ b₀.toNat ∧ b₀.toNat ≤ 0xF4)
    (h₁ : (if b₀.toNat = 0xF0 then 0x90 else 0x80) ≤ b₁.toNat ∧
      b₁.toNat ≤ if b₀.toNat = 0xF4 then 0x8F else 0xBF)
    (h₂ : 0x80 ≤ b₂.toNat ∧ b₂.toNat ≤ 0xBF) (h : 0x80 ≤ b.toNat ∧ b.toNat ≤ 0xBF) :
    [b₀, b₁, b₂, b] = String.utf8EncodeChar (Char.ofNat
      (((b₀.toNat % 8 * 64 + b₁.toNat % 64) * 64 + b₂.toNat % 64) * 64 + b.toNat % 64)) := by
  have hrange : 0x80 ≤ b₁.toNat ∧ b₁.toNat ≤ 0xBF ∧ (b₀.toNat = 0xF0 → 0x90 ≤ b₁.toNat) ∧
      (b₀.toNat = 0xF4 → b₁.toNat ≤ 0x8F) := by
    split_ifs at h₁ <;> omega
  have hn := toNat_ofNat (n := ((b₀.toNat % 8 * 64 + b₁.toNat % 64) * 64 +
    b₂.toNat % 64) * 64 + b.toNat % 64) (by omega)
  rw [utf8EncodeChar_four (by omega), hn, ofNat_eq (b := b₀) (by omega),
    ofNat_eq (b := b₁) (by omega), ofNat_eq (b := b₂) (by omega), ofNat_eq (b := b) (by omega)]

/-- **With its last byte** a character has all of its bytes. -/
theorem Begun.complete {low high v : ℕ} {bytes : List UInt8} {b : UInt8}
    (h : Begun ⟨1, low, high, v⟩ bytes) (hb : low ≤ b.toNat ∧ b.toNat ≤ high) :
    bytes ++ [b] = String.utf8EncodeChar (Char.ofNat (v * 64 + b.toNat % 64)) := by
  -- as many bytes as the first one announces
  cases h with
  | @lead b₀ _ _ _ h =>
    obtain ⟨hlow, hhigh⟩ : 0xC2 ≤ b₀.toNat ∧ b₀.toNat < 0xE0 := by
      have := lead_cases h
      omega
    rw [lead_two hlow hhigh] at h
    cases h
    exact two_eq_utf8EncodeChar ⟨hlow, hhigh⟩ hb
  | @within _ _ _ _ _ b' h hb' =>
    cases h with
    | @lead b₀ _ _ _ h =>
      obtain ⟨hlow, hhigh⟩ : 0xE0 ≤ b₀.toNat ∧ b₀.toNat < 0xF0 := by
        have := lead_cases h
        omega
      rw [lead_three hlow hhigh] at h
      cases h
      exact three_eq_utf8EncodeChar ⟨hlow, hhigh⟩ hb' hb
    | @within _ _ _ _ _ b₁ h hb₁ =>
      cases h with
      | @lead b₀ _ _ _ h =>
        obtain ⟨hlow, hhigh⟩ : 0xF0 ≤ b₀.toNat ∧ b₀.toNat ≤ 0xF4 := by
          have := lead_cases h
          omega
        rw [lead_four hlow hhigh] at h
        cases h
        exact four_eq_utf8EncodeChar ⟨hlow, hhigh⟩ hb₁ hb' hb
      | within h _ => exact absurd h.needed_le (by decide : ¬ 4 ≤ 3)

namespace Reading

/-- **Everything read is characters,** and these are their bytes. -/
inductive Spells : Reading → List UInt8 → Prop
  | whole (cs : List Char) :
      Spells ⟨(cs.map some).reverse, none⟩ (cs.flatMap String.utf8EncodeChar)
  | begun (cs : List Char) {p : Partial} {bytes : List UInt8} : Begun p bytes →
      Spells ⟨(cs.map some).reverse, some p⟩ (cs.flatMap String.utf8EncodeChar ++ bytes)

/-- One more character. -/
theorem Spells.push (cs : List Char) {c : Char} {bytes : List UInt8}
    (h : bytes = String.utf8EncodeChar c) :
    Spells ⟨some c :: (cs.map some).reverse, none⟩
      (cs.flatMap String.utf8EncodeChar ++ bytes) := by
  have hwhole := Spells.whole (cs ++ [c])
  rw [List.map_append, List.reverse_append, List.flatMap_append] at hwhole
  rw [h]
  simpa using hwhole

theorem mem_fresh (h : none ∈ done) (b : ℕ) : none ∈ (fresh done b).done := by
  rw [fresh]
  split
  · exact List.mem_cons_of_mem _ h
  · exact List.mem_cons_of_mem _ h
  · exact h

/-- What is no character is not forgotten. -/
theorem mem_step {r : Reading} (h : none ∈ r.done) (b : UInt8) : none ∈ (r.step b).done := by
  obtain ⟨done, begun⟩ := r
  cases begun with
  | none => exact mem_fresh h _
  | some p =>
    by_cases hb : p.low ≤ b.toNat ∧ b.toNat ≤ p.high
    · rw [step]
      dsimp only
      rw [if_pos hb]
      split
      · exact List.mem_cons_of_mem _ h
      · exact h
    · rw [step_broken hb]
      exact mem_fresh (List.mem_cons_of_mem _ h) _

theorem mem_foldl {r : Reading} (h : none ∈ r.done) (bytes : List UInt8) :
    none ∈ (bytes.foldl step r).done := by
  induction bytes generalizing r with
  | nil => exact h
  | cons b bytes ih => exact ih (mem_step h b)

/-- **A byte that breaks nothing** is one more of the bytes. -/
theorem Spells.step {r : Reading} {bytes : List UInt8} (h : r.Spells bytes) {b : UInt8}
    (hb : none ∉ (r.step b).done) : (r.step b).Spells (bytes ++ [b]) := by
  cases h with
  | whole cs =>
    rw [step_none] at hb ⊢
    cases hlead : lead b.toNat with
    | none =>
      rw [fresh_of_none hlead] at hb
      exact absurd List.mem_cons_self hb
    | some l =>
      obtain ⟨_ | k, low, high⟩ := l
      · obtain hb : b.toNat < 0x80 := by
          have := lead_cases hlead
          omega
        have hn := toNat_ofNat (n := b.toNat) (.inl (by omega))
        rw [fresh_of_one hlead]
        refine .push cs ?_
        rw [utf8EncodeChar_one (by omega), hn, UInt8.ofNat_toNat]
      · rw [fresh_of_lead hlead]
        exact .begun cs (.lead hlead)
  | @begun cs p bytes h =>
    obtain ⟨needed, low, high, v⟩ := p
    by_cases hrange : low ≤ b.toNat ∧ b.toNat ≤ high
    · rw [List.append_assoc]
      match needed, h with
      | 1, h =>
        rw [step_last hrange]
        exact .push cs (h.complete hrange)
      | k + 2, h =>
        rw [step_within hrange]
        exact .begun cs (.within h hrange)
    · rw [step_broken hrange] at hb
      exact absurd (mem_fresh List.mem_cons_self _) hb

/-- **Bytes that break nothing** are those of characters. -/
theorem Spells.foldl {r : Reading} {bytes more : List UInt8} (h : r.Spells bytes)
    (hmore : none ∉ (more.foldl Reading.step r).done) :
    (more.foldl Reading.step r).Spells (bytes ++ more) := by
  induction more generalizing r bytes with
  | nil =>
    rw [List.append_nil]
    exact h
  | cons b more ih =>
    have hb : none ∉ (r.step b).done := fun hb => hmore (mem_foldl hb more)
    rw [List.append_cons]
    exact ih (h.step hb) hmore

end Reading

/-! ## Texts -/

/-- The bytes of characters are read as these characters. -/
theorem read_flatMap (cs : List Char) : read (cs.flatMap String.utf8EncodeChar) = cs.map some := by
  rw [read, foldl_flatMap_utf8EncodeChar, List.append_nil]
  exact List.reverse_reverse _

/-- **Bytes read as characters** are the bytes of characters. -/
theorem exists_of_read {bytes : List UInt8} (h : none ∉ read bytes) :
    ∃ cs : List Char, bytes = cs.flatMap String.utf8EncodeChar := by
  have hdone : none ∉ (bytes.foldl Reading.step ⟨[], none⟩).done := by
    intro hmem
    refine h (List.mem_reverse.mpr ?_)
    split
    · exact List.mem_cons_self
    · exact hmem
  have hspells : (bytes.foldl Reading.step ⟨[], none⟩).Spells bytes :=
    (Reading.Spells.whole []).foldl hdone
  rw [read] at h
  generalize bytes.foldl Reading.step ⟨[], none⟩ = r at h hspells
  cases hspells with
  | whole cs => exact ⟨cs, rfl⟩
  | begun cs hp => exact absurd (List.mem_reverse.mpr List.mem_cons_self) h

theorem toList_eq (bytes : ByteArray) : bytes.toList = bytes.data.toList := by
  have hloop : ∀ (i : ℕ) (r : List UInt8),
      ByteArray.toList.loop bytes i r = r.reverse ++ bytes.data.toList.drop i := by
    intro i r
    fun_induction ByteArray.toList.loop bytes i r with
    | case1 i r h ih =>
      have hi : i < bytes.data.toList.length := by simpa using h
      rw [ih, List.drop_eq_getElem_cons hi, List.reverse_cons, List.append_assoc]
      simp [ByteArray.get!, h]
    | case2 i r h =>
      rw [List.drop_eq_nil_of_le (by simpa using Nat.le_of_not_lt h), List.append_nil]
  rw [ByteArray.toList, hloop]
  rfl

/-- **The bytes of a text** are those of its characters. -/
theorem eq_toUTF8_iff {bytes : ByteArray} {s : String} :
    bytes = s.toUTF8 ↔ bytes.toList = s.toList.flatMap String.utf8EncodeChar := by
  have htext : s.toUTF8 = (s.toList.flatMap String.utf8EncodeChar).toByteArray := by
    obtain ⟨cs, rfl⟩ := s.exists_eq_ofList
    rw [String.toUTF8_eq_toByteArray, String.toByteArray_ofList, String.toList_ofList]
    rfl
  rw [htext, toList_eq]
  constructor
  · rintro rfl
    exact List.toList_data_toByteArray
  · intro h
    refine ByteArray.ext (Array.toList_inj.mp ?_)
    rw [h, List.toList_data_toByteArray]

/-- **Text comes back** from its bytes. -/
theorem decodeLossy_toUTF8 (s : String) : decodeLossy s.toUTF8 = s := by
  have hread : (s.toList.map some).map (·.getD replacement) = s.toList := by
    rw [List.map_map]
    exact List.map_id _
  rw [decodeLossy, eq_toUTF8_iff.mp rfl, read_flatMap, hread, String.ofList_toList]

theorem mapM_id_eq_some_iff {γ : Type} {xs : List (Option γ)} {ys : List γ} :
    xs.mapM id = some ys ↔ xs = ys.map some := by
  induction xs generalizing ys with
  | nil => cases ys <;> simp
  | cons x xs ih => cases ys <;> simp [List.mapM_cons, Option.bind_eq_some_iff, ih]

/-- **Bytes that are well formed** are the bytes of the text they are read as. -/
theorem decode?_eq_some_iff {bytes : ByteArray} {s : String} :
    decode? bytes = some s ↔ bytes = s.toUTF8 := by
  constructor
  · intro h
    obtain ⟨cs, hcs, rfl⟩ := Option.map_eq_some_iff.mp h
    have hread := mapM_id_eq_some_iff.mp hcs
    have hnone : none ∉ read bytes.toList := by
      rw [hread]
      simp
    obtain ⟨cs', hbytes⟩ := exists_of_read hnone
    rw [hbytes, read_flatMap] at hread
    obtain rfl : cs' = cs := (List.map_inj_right fun _ _ => Option.some.inj).mp hread
    exact eq_toUTF8_iff.mpr (by rw [hbytes, String.toList_ofList])
  · rintro rfl
    rw [decode?, eq_toUTF8_iff.mp rfl, read_flatMap, mapM_id_eq_some_iff.mpr rfl, Option.map_some,
      String.ofList_toList]

/-- **Bytes of no text** are read with a replacement character. -/
theorem replacement_mem_decodeLossy {bytes : ByteArray} (h : ∀ s : String, bytes ≠ s.toUTF8) :
    replacement ∈ (decodeLossy bytes).toList := by
  have hnone : none ∈ read bytes.toList := by
    by_contra hread
    obtain ⟨cs, hbytes⟩ := exists_of_read hread
    exact h (String.ofList cs) (eq_toUTF8_iff.mpr (by rw [hbytes, String.toList_ofList]))
  rw [decodeLossy, String.toList_ofList]
  exact List.mem_map.mpr ⟨none, hnone, rfl⟩

end Utf8

end SplitQP
