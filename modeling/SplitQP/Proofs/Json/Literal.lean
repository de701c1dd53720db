import Mathlib.Data.Int.Order.Basic
import SplitQP.Proofs.Json.Reader
/-!
# Numbers in pieces

A number is written as a sign, the digits before the point, those behind
it, and an exponent (`Literal`). However the pieces are chosen, the grammar
takes them and nothing else (`grammar_text`), given that each of them is
digits where it should be and that there is no zero too many in front.
-/

namespace SplitQP

open Reader

namespace Numeral

/-- The pieces of a number as it is written. -/
structure Literal where
  negative : Bool
  whole : List Char
  /-- The digits behind the point, if there is one. -/
  behind : Option (List Char)
  /-- The exponent, if there is one. -/
  power : Option ℤ

namespace Literal

/-! ## What is written, and what it says -/

def signText (negative : Bool) : List Char := if negative then ['-'] else []

def fractionText : Option (List Char) → List Char
  | none => []
  | some ds => '.' :: ds

def powerText : Option ℤ → List Char
  | none => []
  | some k => 'e' :: ((if 0 < k then ['+'] else []) ++ (toString k).toList)

/-- The pieces one after the other. -/
def text (l : Literal) : List Char :=
  signText l.negative ++ (l.whole ++ (fractionText l.behind ++ powerText l.power))

/-- What the pieces say. -/
def numeral (l : Literal) : Numeral where
  negative := l.negative
  digits := ofDigits (l.whole ++ l.behind.getD [])
  exponent := l.power.getD 0 - ((l.behind.getD []).length : ℤ)
  isPlain := l.behind.isNone && l.power.isNone

/-- The pieces are such as a number may have. -/
structure WellFormed (l : Literal) : Prop where
  whole_digits : ∀ c ∈ l.whole, c.isDigit = true
  whole_ne_nil : l.whole ≠ []
  whole_head : l.whole.head? = some '0' → l.whole.length ≤ 1
  behind_digits : ∀ ds ∈ l.behind, ds ≠ [] ∧ ∀ c ∈ ds, c.isDigit = true

end Literal

/-! ## Digits are taken -/

/-- No digit comes next. -/
def Stops (rest : List Char) : Prop := ∀ c ∈ rest.head?, c.isDigit = false

variable {ds rest : List Char}

theorem takeDigits_append (hds : ∀ c ∈ ds, c.isDigit = true) (hrest : Stops rest) :
    takeDigits (ds ++ rest) = .ok (ds, rest) := by
  have hstop : rest.takeWhile Char.isDigit = [] ∧ rest.dropWhile Char.isDigit = rest := by
    cases rest with
    | nil => exact ⟨rfl, rfl⟩
    | cons c cs =>
      have hc : c.isDigit = false := hrest c rfl
      constructor <;> simp [hc]
  show Except.ok ((ds ++ rest).takeWhile Char.isDigit, (ds ++ rest).dropWhile Char.isDigit) = _
  rw [List.takeWhile_append_of_pos hds, List.dropWhile_append_of_pos hds, hstop.1, hstop.2,
    List.append_nil]

theorem someDigits_append (hds : ∀ c ∈ ds, c.isDigit = true) (hne : ds ≠ [])
    (hrest : Stops rest) : someDigits (ds ++ rest) = .ok (ds, rest) := by
  rw [someDigits, bind_of_ok (rfl : (get : Reader _) _ = .ok (_, _)),
    bind_of_ok (takeDigits_append hds hrest), if_neg (by simpa using hne)]
  rfl

theorem wholeDigits_append (hds : ∀ c ∈ ds, c.isDigit = true) (hne : ds ≠ [])
    (hhead : ds.head? = some '0' → ds.length ≤ 1) (hrest : Stops rest) :
    wholeDigits (ds ++ rest) = .ok (ds, rest) := by
  rw [wholeDigits, bind_of_ok (someDigits_append hds hne hrest), if_neg (by grind)]
  rfl

theorem fraction_append {behind : Option (List Char)}
    (hbehind : ∀ ds ∈ behind, ds ≠ [] ∧ ∀ c ∈ ds, c.isDigit = true) (hrest : Stops rest)
    (hpoint : ∀ c ∈ rest.head?, c ≠ '.') :
    fraction (Literal.fractionText behind ++ rest) = .ok (behind, rest) := by
  cases behind with
  | none =>
    rw [Literal.fractionText, List.nil_append, fraction,
      bind_of_ok (takeIf_of_neg fun c hc => decide_eq_false (hpoint c hc))]
    rfl
  | some ds =>
    obtain ⟨hne, hds⟩ := hbehind ds rfl
    rw [Literal.fractionText, List.cons_append, fraction, bind_of_ok (takeIf_of_pos (by decide)),
      if_pos rfl, bind_of_ok (someDigits_append hds hne hrest)]
    rfl

/-! ## What digits stand for -/

theorem ofDigits_eq (ds : List Char) : ofDigits ds = Nat.ofDigitChars 10 ds 0 := by
  have hstep : (fun n (d : Char) => n * 10 + (d.toNat - 48)) =
      fun n (d : Char) => 10 * n + (d.toNat - '0'.toNat) := by
    funext n d
    rw [Nat.mul_comm]
    rfl
  rw [ofDigits, hstep, Nat.ofDigitChars_eq_foldl]

/-! ## Signs and exponents -/

/-- An integer as text is its sign and its digits. -/
theorem toList_toString (k : ℤ) :
    (toString k).toList =
      Literal.signText (decide (k < 0)) ++ Decimal.digits k.natAbs := by
  rw [Int.toString_eq_repr, Int.repr_eq_if, Literal.signText]
  by_cases hk : 0 ≤ k
  · rw [if_pos hk, if_neg (by simpa using hk), Nat.toList_repr, Decimal.digits, List.nil_append]
    congr 1
    omega
  · rw [if_neg hk, if_pos (by simpa using hk), String.toList_append, Nat.toList_repr,
      Decimal.digits]
    congr 2
    omega

theorem isDigit_of_mem_digits {n : ℕ} : ∀ c ∈ Decimal.digits n, c.isDigit = true := fun _ hc =>
  Nat.isDigit_of_mem_toDigits (by decide) (by decide) hc

theorem ofDigits_digits (n : ℕ) : ofDigits (Decimal.digits n) = n := by
  rw [ofDigits_eq, Decimal.digits, Nat.ofDigitChars_ten_toDigits]

/-- Digits begin with a digit. -/
theorem head?_digits_append {p : Char → Bool} (hds : ∀ c ∈ ds, c.isDigit = true) (hne : ds ≠ [])
    (hp : ∀ c, c.isDigit = true → p c = false) : ∀ c ∈ (ds ++ rest).head?, p c = false := by
  cases ds with
  | nil => exact absurd rfl hne
  | cons d ds =>
    rintro c hc
    cases hc
    exact hp d (hds d List.mem_cons_self)

theorem takeIf_digits {a : Char} (ha : a.isDigit = false) (hds : ∀ c ∈ ds, c.isDigit = true)
    (hne : ds ≠ []) : takeIf (· = a) (ds ++ rest) = .ok (false, ds ++ rest) := by
  refine takeIf_of_neg (head?_digits_append hds hne fun c hc => decide_eq_false ?_)
  rintro rfl
  rw [hc] at ha
  cases ha

theorem takeIf_signText (negative : Bool) (hds : ∀ c ∈ ds, c.isDigit = true) (hne : ds ≠ []) :
    takeIf (· = '-') (Literal.signText negative ++ (ds ++ rest)) = .ok (negative, ds ++ rest) := by
  cases negative with
  | false =>
    rw [Literal.signText, if_neg (by decide), List.nil_append]
    exact takeIf_digits rfl hds hne
  | true => exact takeIf_of_pos (by decide)

theorem power_append {power' : Option ℤ} (hrest : Stops rest)
    (he : ∀ c ∈ rest.head?, c ≠ 'e' ∧ c ≠ 'E') :
    power (Literal.powerText power' ++ rest) = .ok (power', rest) := by
  cases power' with
  | none =>
    rw [Literal.powerText, List.nil_append, power, bind_of_ok (takeIf_of_neg fun c hc => by
      simpa using he c hc)]
    rfl
  | some k =>
    have hds : ∀ c ∈ Decimal.digits k.natAbs, c.isDigit = true := isDigit_of_mem_digits
    have hne : Decimal.digits k.natAbs ≠ [] := Nat.toDigits_ne_nil
    have hvalue : ∀ negative : Bool, (if negative then -(k.natAbs : ℤ) else k.natAbs) = k →
        (do
          let n := ofDigits (← someDigits)
          return some (if negative then -n else n) : Reader (Option ℤ))
          (Decimal.digits k.natAbs ++ rest) = .ok (some k, rest) := by
      intro negative hk
      rw [bind_of_ok (someDigits_append hds hne hrest)]
      simp only [ofDigits_digits, hk]
      rfl
    rw [Literal.powerText, List.cons_append, power, bind_of_ok (takeIf_of_pos (by decide)),
      if_pos rfl, toList_toString, List.append_assoc, List.append_assoc]
    rcases lt_trichotomy k 0 with hk | hk | hk
    · rw [if_neg (by omega), List.nil_append, bind_of_ok (takeIf_signText _ hds hne),
        decide_eq_true hk, if_pos rfl]
      exact hvalue true (by rw [if_pos rfl]; omega)
    · rw [if_neg (by omega), List.nil_append, bind_of_ok (takeIf_signText _ hds hne),
        decide_eq_false (by omega), if_neg (by decide), bind_of_ok (takeIf_digits rfl hds hne)]
      exact hvalue false (by rw [if_neg (by decide)]; omega)
    · rw [if_pos hk, decide_eq_false (by omega), Literal.signText, if_neg (by decide),
        List.nil_append, List.singleton_append, bind_of_ok (takeIf_of_neg (by simp)),
        if_neg (by decide), bind_of_ok (takeIf_of_pos (by decide))]
      exact hvalue false (by rw [if_neg (by decide)]; omega)

/-! ## The whole number -/

theorem stops_of_ends (h : Ends rest) : Stops rest := by
  intro c hc
  rcases h c hc with rfl | rfl | rfl <;> rfl

/-- **A number is read as its pieces say.** -/
theorem grammar_text {l : Literal} (h : l.WellFormed) (hrest : Ends rest) :
    grammar (l.text ++ rest) = .ok (l.numeral, rest) := by
  have hpower : power (Literal.powerText l.power ++ rest) = .ok (l.power, rest) :=
    power_append (stops_of_ends hrest) fun c hc => by
      rcases hrest c hc with rfl | rfl | rfl <;> decide
  -- what stands behind each piece does not go on with it
  have hpowerhead : ∀ c ∈ (Literal.powerText l.power ++ rest).head?,
      c.isDigit = false ∧ c ≠ '.' := by
    intro c hc
    cases hp : l.power with
    | none =>
      rw [hp] at hc
      rcases hrest c hc with rfl | rfl | rfl <;> decide
    | some k =>
      rw [hp] at hc
      cases hc
      decide
  have hfraction : fraction (Literal.fractionText l.behind ++ (Literal.powerText l.power ++ rest)) =
      .ok (l.behind, Literal.powerText l.power ++ rest) :=
    fraction_append h.behind_digits (fun c hc => (hpowerhead c hc).1)
      fun c hc => (hpowerhead c hc).2
  have hfractionhead :
      Stops (Literal.fractionText l.behind ++ (Literal.powerText l.power ++ rest)) := by
    intro c hc
    cases hb : l.behind with
    | none =>
      rw [hb] at hc
      exact (hpowerhead c hc).1
    | some ds =>
      rw [hb] at hc
      cases hc
      rfl
  rw [Literal.text, List.append_assoc, List.append_assoc, List.append_assoc, grammar,
    bind_of_ok (takeIf_signText _ h.whole_digits h.whole_ne_nil),
    bind_of_ok (wholeDigits_append h.whole_digits h.whole_ne_nil h.whole_head hfractionhead),
    bind_of_ok hfraction, bind_of_ok hpower]
  rfl

end Numeral

end SplitQP
