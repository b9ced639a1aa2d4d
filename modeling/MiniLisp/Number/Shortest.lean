import MiniLisp.Number.Binary64

/-!
# Shortest decimals of binary64 numbers

The decimal written for a float is the one with the fewest digits that rounds back to it;
among those, the nearest; and of two equally near, the one whose last digit is even.

The reals that round to a float form an interval around it, whose ends belong to it exactly
when the significand is even. `shortest` walks down the grids of multiples of `10^k`: the
first grid with a point in the interval has the fewest digits, and the two grid points
around the float are the only candidates on it. All of it is exact arithmetic on naturals.

* `Decimal` — `digits * 10^exponent`.
* `Decimal.shortest` — the decimal of a finite, nonzero magnitude.
-/

namespace MiniLisp

/-- The decimal number `digits * 10^exponent`. -/
structure Decimal where
  digits : Nat
  exponent : Int
deriving DecidableEq, Repr

/-- The reals that round to one float: from `low / den` to `high / den`, around the float
    itself at `mid / den`. The ends belong to it when `closed`. -/
structure RoundingInterval where
  low : Nat
  mid : Nat
  high : Nat
  den : Nat
  closed : Bool

/-- The `n`-th power of ten. -/
def tenPow (n : Nat) : Nat := Nat.pow 10 n

namespace RoundingInterval

/-- The interval of a finite float other than zero, sign dropped. In quarters of the last
    place, the neighbours' midpoints lie two away, but the lower one of a power of two
    lies one away, since the floats below it are twice as dense. -/
def ofFloat (x : Float) : RoundingInterval :=
  let m := Binary64.significand x
  let e := Binary64.exponent x - 2
  let below := if Binary64.fraction x = 0 ∧ 1 < Binary64.biased x then 1 else 2
  let up := Binary64.twoPow e.toNat
  { low := (4 * m - below) * up
    mid := 4 * m * up
    high := (4 * m + 2) * up
    den := Binary64.twoPow (-e).toNat
    closed := m % 2 == 0 }

/-- Whether `n / d` lies in the interval. -/
def contains (i : RoundingInterval) (n d : Nat) : Bool :=
  if i.closed then i.low * d ≤ n * i.den && n * i.den ≤ i.high * d
  else i.low * d < n * i.den && n * i.den < i.high * d

/-- The multiple of `10^k` that stands for the interval's float, if the grid has a point in
    the interval: of the two multiples around the float, the one inside, or the nearer, or
    the even one. -/
def onGrid? (i : RoundingInterval) (k : Int) : Option Nat :=
  let up := tenPow k.toNat
  let down := tenPow (-k).toNat
  let c := i.mid * down / (up * i.den)
  match i.contains (c * up) down, i.contains ((c + 1) * up) down with
  | true, false => some c
  | false, true => some (c + 1)
  | false, false => none
  | true, true =>
    let twice := 2 * (i.mid * down)
    let middle := (2 * c + 1) * (up * i.den)
    if twice < middle then some c
    else if middle < twice then some (c + 1)
    else some (c + c % 2)

/-- The first of the grids `10^k`, `10^(k-1)`, ... with a point in the interval. -/
def firstGrid (i : RoundingInterval) : Nat → Int → Decimal
  | 0, k => ⟨i.mid * tenPow (-k).toNat / (tenPow k.toNat * i.den), k⟩
  | n + 1, k =>
    match i.onGrid? k with
    | some c => ⟨c, k⟩
    | none => firstGrid i n (k - 1)

/-- A `k` with `10^k` above the float, by at most a factor of a thousand. -/
def above (i : RoundingInterval) : Int :=
  ((i.mid.log2 : Int) - i.den.log2 + 1) * 30103 / 100000 + 2

end RoundingInterval

/-- The shortest decimal that rounds to a finite float other than zero, sign dropped.
    Seventeen digits always suffice, and the first grid is at most three places too high. -/
def Decimal.shortest (x : Float) : Decimal :=
  let i := RoundingInterval.ofFloat x
  i.firstGrid 24 i.above

end MiniLisp
