import GraphQLDoc.Binary64
import GraphQLDoc.Decimal

/-!
# The shortest decimal of a double

Many decimals round to the same double. `Binary64.shortest` picks one with the fewest digits, and
of those the nearest to the exact value.

The numbers that round to a double form an interval around it. `Bracket` holds the interval and the
exact value on one common scale, a power of ten that makes all three natural numbers. So the whole
search compares natural numbers and never rounds. It tries ever finer decimal grids, and on each the
two neighbours of the exact value. The last grid holds the exact value itself, so the search always
ends with a decimal of the interval.
-/

namespace GraphQLDoc

/-- A double and the interval of numbers that round to it, all in units of `10 ^ exponent`. -/
structure Bracket where
  low : Nat
  value : Nat
  high : Nat
  /-- Both ends round to the double too. -/
  closed : Bool
  exponent : Int
  deriving DecidableEq

namespace Bracket

/-- A number of units lies in the interval. -/
def contains (b : Bracket) (n : Nat) : Bool :=
  if b.closed then b.low ≤ n && n ≤ b.high else b.low < n && n < b.high

/-- The multiple of `grid` in the interval that is nearest to the value, as a count of `grid`s. Of
two equally near the even count is taken. -/
def onGrid? (b : Bracket) (grid : Nat) : Option Nat :=
  let below := b.value / grid
  let rest := b.value % grid
  if b.contains (below * grid) then
    if b.contains ((below + 1) * grid) then
      if 2 * rest < grid then some below
      else if grid < 2 * rest then some (below + 1)
      else some (below + below % 2)
    else some below
  else if b.contains ((below + 1) * grid) then some (below + 1)
  else none

/-- The first hit on the grids `10 ^ places`, `10 ^ (places - 1)`, … of units. On the grid of single
units the value is its own neighbour. -/
def search (b : Bracket) : Nat → Decimal
  | 0 => ⟨b.value, b.exponent⟩
  | places + 1 =>
    match b.onGrid? (Nat.pow 10 (places + 1)) with
    | some count => ⟨count, b.exponent + (places + 1 : Nat)⟩
    | none => b.search places

/-- A decimal of the interval with the fewest digits. The coarsest grid leaves the value one
digit. -/
def shortest (b : Bracket) : Decimal := b.search ((digits b.value).length - 1)

end Bracket

namespace Binary64

/-- The interval of a finite number's magnitude.

The neighbours are half a unit of the last place away. Below a power of two the numbers lie twice
as dense, so the lower end is only a quarter of a unit away. In quarters of that unit, all three are
integers times a power of two, and a negative power of two is a power of five over one of ten. -/
def bracket (x : Binary64) : Bracket :=
  let quarter : Int := x.exponent - 2
  let scale := Nat.pow 2 quarter.toNat * Nat.pow 5 (-quarter).toNat
  let below := if x.fraction = 0 ∧ 1 < x.exponentField then 1 else 2
  { low := (4 * x.significand - below) * scale
    value := 4 * x.significand * scale
    high := (4 * x.significand + 2) * scale
    closed := x.significand % 2 == 0
    exponent := min quarter 0 }

/-- The decimal with the fewest digits that rounds to a finite number's magnitude. -/
def shortest (x : Binary64) : Decimal :=
  if x.isZero then ⟨0, 0⟩ else x.bracket.shortest

end Binary64

end GraphQLDoc
