import SplitQP.Number.Decimal
/-!
# The shortest decimal that reads back

Every double is the nearest one to an interval of real numbers. Among the
decimals in that interval the shortest one is written, and of several the
one nearest to the double. On the grid of decimals with a given number of
digits only the two neighbours of the value need be looked at.
-/

namespace SplitQP

namespace Shortest

/-- The interval of reals that round to a double, and the double itself, as
numerators over one denominator. `closed` says whether the ends belong to it. -/
structure Interval where
  low : Nat
  value : Nat
  high : Nat
  den : Nat
  closed : Bool

/-- The interval of `m · 2 ^ e`. Below a power of two it reaches half as far. -/
def Interval.of (m : Nat) (e : Int) : Interval :=
  let below := if m = pow2 52 ∧ -1074 < e then 1 else 2
  let unit := pow2 (e - 2).toNat
  ⟨(4 * m - below) * unit, 4 * m * unit, (4 * m + 2) * unit, pow2 (2 - e).toNat, m % 2 == 0⟩

/-- Whether `num / den` lies in the interval. -/
def Interval.contains (i : Interval) (num den : Nat) : Bool :=
  if i.closed then i.low * den ≤ num * i.den && num * i.den ≤ i.high * den
  else i.low * den < num * i.den && num * i.den < i.high * den

/-- The decimal `d · 10 ^ k` as a quotient. -/
def quotient (d : Nat) (k : Int) : Nat × Nat := (d * pow10 k.toNat, pow10 (-k).toNat)

/-- The nearest decimal in the interval that is a multiple of `10 ^ k`. -/
def onGrid (tie : Tie) (i : Interval) (k : Int) : Option Nat :=
  let (a, b) := Decimal.inUnits i.value i.den k
  let near := roundDiv tie a b
  let down := a / b
  let far := if near = down then down + 1 else down
  let inside (d : Nat) : Bool :=
    let (num, den) := quotient d k
    0 < d && i.contains num den
  if inside near then some near else if inside far then some far else none

/-- The first grid with a hit, from `count` digits on; `fuel` grids are
tried. -/
def search (tie : Tie) (i : Interval) (decade : Int) : Nat → Nat → Nat × Int
  | 0, count => (i.value / i.den, decade - count)
  | fuel + 1, count =>
    let k := decade - count
    match onGrid tie i k with
    | some d => (d, k)
    | none => search tie i decade fuel (count + 1)

/-- Without trailing zeros. -/
def stripZeros (ds : List Char) : List Char := (ds.reverse.dropWhile (· = '0')).reverse

/-- **The digits of the shortest decimal and the exponent of the first.** -/
def ofPositive (tie : Tie) (m : Nat) (e : Int) : List Char × Int :=
  let i := Interval.of m e
  let (d, k) := search tie i (Decimal.decade i.value i.den) 17 0
  let ds := Decimal.digits d
  (stripZeros ds, k + (ds.length - 1 : Nat))

/-- A positional decimal: `point` digits stand before the point, which is left
out where nothing follows. `tail` is what follows a whole number. -/
def positional (tail : String) (ds : List Char) (point : Int) : String :=
  if point ≤ 0 then
    "0." ++ String.ofList (List.replicate (-point).toNat '0' ++ ds)
  else
    let whole := ds.take point.toNat
    let rest := ds.drop point.toNat
    let whole := whole ++ List.replicate (point.toNat - whole.length) '0'
    String.ofList whole ++ (if rest.isEmpty then tail else String.ofList ('.' :: rest))

/-- **Plain text:** positional whatever the size, whole numbers without a
point. -/
def plain (x : Float) : String :=
  match Binary.ofFloat x with
  | .nan => "NaN"
  | .infinite negative => Decimal.sign false negative ++ "inf"
  | .finite negative m e =>
    Decimal.sign false negative ++
      if m = 0 then "0" else
        let (ds, k) := ofPositive .up m e
        positional "" ds (k + 1)

/-- **Exponent text:** one digit before the point. -/
def exponent (x : Float) : String :=
  match Binary.ofFloat x with
  | .nan => "NaN"
  | .infinite negative => Decimal.sign false negative ++ "inf"
  | .finite negative m e =>
    let (ds, k) := if m = 0 then (['0'], 0) else ofPositive .up m e
    Decimal.sign false negative ++ Decimal.pointed ds ++ "e" ++ toString k

end Shortest

end SplitQP
