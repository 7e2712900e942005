/-
# The shortest decimal of a double

A double stands for all reals that round to it: an interval around its value
that reaches half-way to each neighbour and holds its ends exactly when the
significand is even. `Binary64.shortest` finds the fewest digits whose
decimal lies in that interval, and among those the decimal nearest to the
value. Everything is exact arithmetic on naturals: for one, two, … seventeen
digits it tries the two neighbours of the value on that decimal grid, and the
first grid with a hit wins.

A tie between the two neighbours is the format's to decide (`Tie`).

Key definitions: `Decimal.Tie`, `Decimal.Digits`, `Binary64.shortest`.
-/
import QueryFilter.Decimal.Binary64

namespace QueryFilter
namespace Decimal

/-- Which of two equally near decimals a format writes. -/
inductive Tie where
  | away
  | even
  deriving DecidableEq

/-- The number of decimal digits of `n`. -/
def length (n : Nat) : Nat := (Nat.toDigits 10 n).length

/-- The decimal `coefficient · 10 ^ exponent`. -/
structure Digits where
  coefficient : Nat
  exponent : Int
  deriving DecidableEq

namespace Digits

/-- The decimal point stands after this many digits, counted from the first. -/
def point (d : Digits) : Int := d.exponent + length d.coefficient

/-- The same decimal without zeros at the end of its coefficient, at most
`fuel` of them. -/
def trimZeros : Nat → Digits → Digits
  | 0, d => d
  | fuel + 1, d =>
    if d.coefficient % 10 = 0 then trimZeros fuel ⟨d.coefficient / 10, d.exponent + 1⟩ else d

end Digits

/-- A positive interval of rationals over one denominator, with the value in it. -/
structure Range where
  low : Nat
  value : Nat
  high : Nat
  den : Nat
  /-- Whether the two ends belong to the interval. -/
  closed : Bool

namespace Range

/-- Whether `num / den` lies in the range. -/
def holds (r : Range) (num den : Nat) : Bool :=
  if r.closed then r.low * den ≤ num * r.den && num * r.den ≤ r.high * den
  else r.low * den < num * r.den && num * r.den < r.high * den

end Range

/-- Between two neighbours on a grid of unit `unit / den`, both of them in the
range, the one nearer to the value. -/
def nearer (tie : Tie) (r : Range) (down unit den : Nat) : Nat :=
  let below := r.value * den - down * unit * r.den
  let above := (down + 1) * unit * r.den - r.value * den
  if below < above then down
  else if above < below then down + 1
  else match tie with
    | .away => down + 1
    | .even => if down % 2 = 0 then down else down + 1

/-- The best point of the range on the grid of unit `unit / den`, if it has one. -/
def gridPoint? (tie : Tie) (r : Range) (unit den : Nat) : Option Nat :=
  let down := r.value * den / (r.den * unit)
  match r.holds (down * unit) den, r.holds ((down + 1) * unit) den with
  | true, true => some (nearer tie r down unit den)
  | true, false => some down
  | false, true => some (down + 1)
  | false, false => none

/-- Grids of `count`, `count + 1`, … digits below `10 ^ point`, `fuel` of them;
the first with a point in the range wins. -/
def search (tie : Tie) (r : Range) (point : Int) : Nat → Nat → Option Digits
  | 0, _ => none
  | fuel + 1, count =>
    let exponent := point - count
    match gridPoint? tie r (Nat.pow 10 exponent.toNat) (Nat.pow 10 (-exponent).toNat) with
    | some c => some ⟨c, exponent⟩
    | none => search tie r point fuel (count + 1)

/-- The `point` with `10 ^ (point - 1) ≤ num / den < 10 ^ point`, for numbers
above `10 ^ -400`. -/
def pointOf (num den : Nat) : Int :=
  (length (num * Nat.pow 10 400 / den) : Int) - 400

end Decimal

namespace Binary64

/-- The reals that round to a positive finite double, over a power of two.

The neighbour below is half as far away when the significand is the least one
of its power of two. -/
def range (x : Binary64) : Decimal.Range :=
  let m := x.significand
  let up := Nat.pow 2 x.scale.toNat
  let below := if x.fraction = 0 ∧ 1 < x.exponentField then 1 else 2
  { low := (4 * m - below) * up
    value := 4 * m * up
    high := (4 * m + 2) * up
    den := 4 * Nat.pow 2 (-x.scale).toNat
    closed := m % 2 = 0 }

/-- The fewest digits that read back as the size of a finite double other than
zero, without zeros at the end. -/
def shortest (tie : Decimal.Tie) (x : Binary64) : Decimal.Digits :=
  let r := x.range
  let point := Decimal.pointOf r.value r.den
  match Decimal.search tie r point 17 1 with
  | some d => d.trimZeros 17
  | none => ⟨0, 0⟩

end Binary64
end QueryFilter
