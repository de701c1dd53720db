import SplitQP.Number.Binary
/-!
# Decimal text with a given number of places

Scientific text has one digit before the point, the given number of
places behind it, and an exponent without sign or padding where it is
not negative. Fixed text has no exponent. Both round the exact value to
the nearest, ties to even.
-/

namespace SplitQP

namespace Decimal

/-- The decimal digits of `n`, most significant first. -/
def digits (n : Nat) : List Char := Nat.toDigits 10 n

/-- Number of decimal digits. -/
def length (n : Nat) : Nat := (digits n).length

/-- The largest `k` with `10 ^ k ≤ num / den`, for positive `num`. -/
def decade (num den : Nat) : Int :=
  if den ≤ num then (length (num / den) : Int) - 1
  else Int.negOfNat (length ((den + num - 1) / num - 1))

/-- `num / den` in units of `10 ^ k`, as a quotient. -/
def inUnits (num den : Nat) (k : Int) : Nat × Nat :=
  (num * pow10 (-k).toNat, den * pow10 k.toNat)

/-- The `places + 1` leading digits of `num / den` as an integer, and the
exponent of the first of them. -/
def leading (places num den : Nat) : Nat × Int :=
  let k := decade num den
  let (a, b) := inUnits num den (k - places)
  let q := roundDiv .toEven a b
  if q = pow10 (places + 1) then (pow10 places, k + 1) else (q, k)

/-- One digit, and the others behind a point if there are any. -/
def pointed : List Char → String
  | [] => ""
  | [d] => String.singleton d
  | d :: ds => String.ofList (d :: '.' :: ds)

/-- The sign of a negative number; `plus` marks the others as well. -/
def sign (plus negative : Bool) : String :=
  if negative then "-" else if plus then "+" else ""

/-- **Scientific text.** `plus` writes the sign of positive numbers too. -/
def scientific (places : Nat) (x : Float) (plus : Bool) : String :=
  match Binary.ofFloat x with
  | .nan => "NaN"
  | .infinite negative => sign plus negative ++ "inf"
  | .finite negative m e =>
    let (q, k) := if m = 0 then (0, 0) else
      let (num, den) := Binary.ratio m e
      leading places num den
    let ds := digits q
    let ds := ds ++ List.replicate (places + 1 - ds.length) '0'
    sign plus negative ++ pointed ds ++ "e" ++ toString k

/-- `ds` with a point before the last `places` digits. -/
def placed (places : Nat) (ds : List Char) : String :=
  let ds := List.replicate (places + 1 - ds.length) '0' ++ ds
  let whole := ds.take (ds.length - places)
  if places = 0 then String.ofList whole
  else String.ofList (whole ++ '.' :: ds.drop (ds.length - places))

/-- **Text with `places` places and no exponent.** -/
def fixed (places : Nat) (x : Float) : String :=
  match Binary.ofFloat x with
  | .nan => "NaN"
  | .infinite negative => sign false negative ++ "inf"
  | .finite negative m e =>
    let (num, den) := Binary.ratio m e
    sign false negative ++ placed places (digits (roundDiv .toEven (num * pow10 places) den))

end Decimal

end SplitQP
