import SplitQP.Fault
import SplitQP.Number.Decimal
/-!
# Time spans

A span of time is a whole number of nanoseconds, below `2 ^ 64` seconds.
A number of seconds is rounded to the nearest nanosecond, ties to even;
one that is negative, too large or not a number is no span of time. The
text uses the largest unit of which there is at least one.
-/

namespace SplitQP

/-- A span of time. -/
structure TimeSpan where
  nanos : Nat
  deriving DecidableEq, Repr

namespace TimeSpan

/-- The span nearest to a number of seconds. -/
def ofSeconds (x : Float) : Checked TimeSpan :=
  match Binary.ofFloat x with
  | .finite negative m e =>
    let (num, den) := Binary.ratio m e
    if negative && m != 0 then .error .timeSpan
    else if pow2 64 * den ≤ num then .error .timeSpan
    else .ok ⟨roundDiv .toEven (num * pow10 9) den⟩
  | _ => .error .timeSpan

/-- Name and size of the unit in which `nanos` nanoseconds are written. -/
def unit (nanos : Nat) : String × Nat :=
  if pow10 9 ≤ nanos then ("s", 9)
  else if pow10 6 ≤ nanos then ("ms", 6)
  else if pow10 3 ≤ nanos then ("µs", 3)
  else ("ns", 0)

/-- `nanos` in units of `10 ^ scale` nanoseconds, without trailing zeros. -/
def amount (nanos scale : Nat) : String :=
  let rest := nanos % pow10 scale
  let ds := Decimal.digits rest
  let ds := List.replicate (scale - ds.length) '0' ++ ds
  let ds := (ds.reverse.dropWhile (· = '0')).reverse
  toString (nanos / pow10 scale) ++
    if rest = 0 then "" else "." ++ String.ofList ds

/-- **The whole span,** down to the nanosecond. -/
def text (t : TimeSpan) : String :=
  let (name, scale) := unit t.nanos
  amount t.nanos scale ++ name

/-- The span to two places. -/
def brief (t : TimeSpan) : String :=
  let (name, scale) := unit t.nanos
  Decimal.placed 2 (Decimal.digits (roundDiv .toEven (t.nanos * 100) (pow10 scale))) ++ name

end TimeSpan

end SplitQP
