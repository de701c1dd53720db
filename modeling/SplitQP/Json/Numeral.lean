import SplitQP.Number.Shortest
import SplitQP.Json.Reader
/-!
# JSON numbers

A double is written with the shortest digits that read back to it, whole
ones with a point and a zero, and with an exponent outside the decades from
-5 to 15; one that is not finite is written as `null`. Every number is read
as the nearest double, unless that is infinite. A number without point and
exponent that fits into 64 bits is an integer, except minus zero.
-/

namespace SplitQP

/-- A decimal number as it is written. -/
structure Numeral where
  negative : Bool
  /-- All digits, before and behind the point. -/
  digits : Nat
  /-- The power of ten of the last digit. -/
  exponent : Int
  /-- There is neither a point nor an exponent. -/
  isPlain : Bool
  deriving DecidableEq, Repr

namespace Numeral

/-- The integer, where the number is one of 64 bits. -/
def toInt? (n : Numeral) : Option Int :=
  if !n.isPlain then none
  else if n.negative then
    if 0 < n.digits ∧ n.digits ≤ pow2 63 then some (-n.digits) else none
  else if n.digits < pow2 64 then some n.digits else none

/-- The nearest double of `digits · 10 ^ exponent`. Beyond four hundred decades
it is zero or infinite. -/
def magnitude (digits : Nat) (exponent : Int) : Float :=
  let decade := exponent + Decimal.length digits
  if digits = 0 ∨ decade < -400 then 0.0
  else if 400 < decade then 1.0 / 0.0
  else Float.ofScientific digits (exponent < 0) exponent.natAbs

/-- **The nearest double,** unless that is infinite. -/
def toFloat? (n : Numeral) : Option Float :=
  let x := magnitude n.digits n.exponent
  if x.isFinite then some (if n.negative then -x else x) else none

/-! ## Reading -/

/-- The number that digits stand for. -/
def ofDigits (ds : List Char) : Nat := ds.foldl (fun n d => n * 10 + (d.toNat - 48)) 0

/-- Takes the digits that come next. -/
def takeDigits : Reader (List Char) :=
  modifyGet fun cs => (cs.takeWhile Char.isDigit, cs.dropWhile Char.isDigit)

/-- Takes one digit or more. -/
def someDigits : Reader (List Char) := do
  let ended := (← get).isEmpty
  let ds ← takeDigits
  if ds.isEmpty then throw (if ended then .truncated else .malformed) else return ds

/-- Takes the digits before the point; a zero comes alone. -/
def wholeDigits : Reader (List Char) := do
  let ds ← someDigits
  if 1 < ds.length ∧ ds.head? = some '0' then throw .malformed else return ds

/-- Takes the digits behind the point, if there is one. -/
def fraction : Reader (Option (List Char)) := do
  if ← Reader.takeIf (· = '.') then return some (← someDigits) else return none

/-- Takes the exponent, if there is one. -/
def power : Reader (Option Int) := do
  if ← Reader.takeIf (fun c => c = 'e' || c = 'E') then
    let negative ← Reader.takeIf (· = '-')
    unless negative do let _ ← Reader.takeIf (· = '+')
    let n := ofDigits (← someDigits)
    return some (if negative then -n else n)
  else return none

/-- A number that begins with the next character. -/
def grammar : Reader Numeral := do
  let negative ← Reader.takeIf (· = '-')
  let whole ← wholeDigits
  let frac ← fraction
  let exp ← power
  let behind := frac.getD []
  return {
    negative := negative
    digits := ofDigits (whole ++ behind)
    exponent := exp.getD 0 - (behind.length : Int)
    isPlain := frac.isNone && exp.isNone }

/-- **Takes a number.** One that is no integer must not be too large. -/
def read : Reader Numeral := do
  let n ← grammar
  if n.toInt?.isSome || n.toFloat?.isSome then return n else throw .malformed

/-- Skips a number. One that is broken off is as bad as any other. -/
def skip : Reader Unit := fun cs =>
  match grammar.run cs with
  | .ok (_, rest) => .ok ((), rest)
  | .error _ => .error .malformed

/-! ## Writing -/

/-- How a finite double is written. -/
def ofFinite (negative : Bool) (m : Nat) (e : Int) : String :=
  let (ds, k) := if m = 0 then (['0'], 0) else Shortest.ofPositive .toEven m e
  Decimal.sign false negative ++
    if -5 ≤ k ∧ k ≤ 15 then Shortest.positional ".0" ds (k + 1)
    else Decimal.pointed ds ++ "e" ++ (if 0 < k then "+" else "") ++ toString k

/-- **A double as text.** -/
def write (x : Float) : List Char :=
  match Binary.ofFloat x with
  | .finite negative m e => (ofFinite negative m e).toList
  | _ => "null".toList

/-- An integer as text. -/
def writeInt (i : Int) : List Char := (toString i).toList

end Numeral

end SplitQP
