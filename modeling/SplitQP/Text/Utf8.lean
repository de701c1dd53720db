import SplitQP.Number.Power
/-!
# Reading bytes as text

UTF-8 has one form for each character. Bytes that are no such form are
read as the replacement character: one for each maximal beginning of a
form that is broken off, and one for each byte that begins none.
-/

namespace SplitQP

namespace Utf8

/-- Number of continuation bytes after the lead byte `b`, and the range of the
first of them; `none` where `b` leads nothing. -/
def lead (b : Nat) : Option (Nat × Nat × Nat) :=
  if b < 0x80 then some (0, 0, 0)
  else if b < 0xC2 then none
  else if b < 0xE0 then some (1, 0x80, 0xBF)
  else if b = 0xE0 then some (2, 0xA0, 0xBF)
  else if b = 0xED then some (2, 0x80, 0x9F)
  else if b < 0xF0 then some (2, 0x80, 0xBF)
  else if b = 0xF0 then some (3, 0x90, 0xBF)
  else if b < 0xF4 then some (3, 0x80, 0xBF)
  else if b = 0xF4 then some (3, 0x80, 0x8F)
  else none

/-- A character in the making: bytes still needed, the range of the next one,
and the value so far. -/
structure Partial where
  needed : Nat
  low : Nat
  high : Nat
  value : Nat

/-- Starts a character at byte `b`: done, begun, or not possible. -/
def start (b : Nat) : Option (Char ⊕ Partial) :=
  match lead b with
  | none => none
  | some (0, _, _) => some (.inl (Char.ofNat b))
  | some (k, low, high) => some (.inr ⟨k, low, high, b % pow2 (6 - k)⟩)

/-- Goes on with a byte in range: done or still begun. -/
def Partial.next (p : Partial) (b : Nat) : Char ⊕ Partial :=
  let value := p.value * 64 + b % 64
  if p.needed = 1 then .inl (Char.ofNat value) else .inr ⟨p.needed - 1, 0x80, 0xBF, value⟩

/-- Stands for bytes that are no character. -/
def replacement : Char := Char.ofNat 0xFFFD

/-- Text read so far, the latest character first, and the character begun. -/
structure Reading where
  done : List (Option Char)
  begun : Option Partial

/-- Reads a byte where a character may start. -/
def Reading.fresh (done : List (Option Char)) (b : Nat) : Reading :=
  match start b with
  | none => ⟨none :: done, none⟩
  | some (.inl c) => ⟨some c :: done, none⟩
  | some (.inr p) => ⟨done, some p⟩

/-- Reads one byte. -/
def Reading.step (r : Reading) (b : UInt8) : Reading :=
  let b := b.toNat
  match r.begun with
  | none => .fresh r.done b
  | some p =>
    if p.low ≤ b ∧ b ≤ p.high then
      match p.next b with
      | .inl c => ⟨some c :: r.done, none⟩
      | .inr p => ⟨r.done, some p⟩
    else .fresh (none :: r.done) b

/-- The characters of `bytes`, `none` for each part that is none. -/
def read (bytes : List UInt8) : List (Option Char) :=
  let r := bytes.foldl Reading.step ⟨[], none⟩
  (if r.begun.isSome then none :: r.done else r.done).reverse

/-- **Text of any bytes,** with replacement characters. -/
def decodeLossy (bytes : ByteArray) : String :=
  String.ofList ((read bytes.toList).map (·.getD replacement))

/-- **Text of well formed bytes.** -/
def decode? (bytes : ByteArray) : Option String :=
  ((read bytes.toList).mapM id).map String.ofList

end Utf8

end SplitQP
