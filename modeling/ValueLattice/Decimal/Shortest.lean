/-!
# Shortest decimals

A binary floating-point number stands for the interval of reals that round to it. Its shortest
decimal is taken from the coarsest grid of multiples of a power of ten that has a point in the
interval: the neighbour of the number on that grid which lies in the interval, the nearer one
where both do, and the upper one where both are equally near.

All comparisons are between naturals. An interval holds three multiples of one power of two,
and a grid scales them and its own points to a common denominator.

* `Interval`: the reals that round to a number;
* `Interval.onGrid`: the point of a grid chosen for a number, if one is in the interval;
* `Interval.shortest`: the shortest decimal.
-/

namespace ValueLattice.Decimal

/-- The reals from `low` to `high` that round to `mid`, all three as multiples of
`2 ^ unit`. -/
structure Interval where
  low : Nat
  mid : Nat
  high : Nat
  unit : Int
  /-- Whether the ends belong to the interval. -/
  closed : Bool

/-- The interval of the number `m * 2 ^ q`. Below it the gap is half as wide as above when
`narrow` is set, and ties round to the even number. -/
def Interval.around (m : Nat) (q : Int) (narrow : Bool) : Interval where
  low := if narrow then 4 * m - 1 else 4 * m - 2
  mid := 4 * m
  high := 4 * m + 2
  unit := q - 2
  closed := m % 2 = 0

/-- The number `digits * 10 ^ exponent`. -/
structure Scaled where
  digits : Nat
  exponent : Int
  deriving DecidableEq

namespace Interval

/-- The factor by which a grid `10 ^ k` scales the multiples of an interval. -/
def scale (i : Interval) (k : Int) : Nat :=
  Nat.pow 2 i.unit.toNat * Nat.pow 10 (-k).toNat

/-- The width of the grid `10 ^ k` at the scale of an interval. -/
def step (i : Interval) (k : Int) : Nat :=
  Nat.pow 2 (-i.unit).toNat * Nat.pow 10 k.toNat

/-- Whether the point `d * 10 ^ k` lies in the interval. -/
def has (i : Interval) (k : Int) (d : Nat) : Bool :=
  let point := d * i.step k
  let low := i.low * i.scale k
  let high := i.high * i.scale k
  if i.closed then low ≤ point && point ≤ high else low < point && point < high

/-- The point of the grid `10 ^ k` chosen for the number: its neighbour in the interval, the
nearer of two, and of two equally near ones the upper. -/
def onGrid (i : Interval) (k : Int) : Option Nat :=
  let below := i.mid * i.scale k / i.step k
  let above := below + 1
  match i.has k below, i.has k above with
  | true, true =>
    if (below + above) * i.step k ≤ 2 * (i.mid * i.scale k) then some above else some below
  | true, false => some below
  | false, true => some above
  | false, false => none

/-- The first decimal chosen on the grids `10 ^ k`, `10 ^ (k - 1)` and so on, `n` grids in
all; on none of them, the one after the last. -/
def search (i : Interval) (k : Int) : Nat → Scaled
  | 0 => ⟨i.mid * i.scale k / i.step k, k⟩
  | n + 1 =>
    match i.onGrid k with
    | some d => ⟨d, k⟩
    | none => search i (k - 1) n

/-- The shortest decimal. The grids reach from `10 ^ 309`, above all numbers of 64 bits, to
`10 ^ -1076`, of which all those numbers are multiples. -/
def shortest (i : Interval) : Scaled := i.search 309 1385

end Interval

end ValueLattice.Decimal
