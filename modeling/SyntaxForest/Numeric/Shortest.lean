import SyntaxForest.Numeric.Binary

/-!
# Shortest decimals

The decimal of a finite number with the fewest digits among those that are nearer to it than to any
other number of its format, and of these the nearest to it.

Every finite number is a whole multiple of `10 ^ -scale`, since `2 ^ -scale` is `5 ^ scale` such
steps. The search therefore runs over whole numbers: it walks from coarse to fine over the grids
`10 ^ j` steps and stops at the first grid one of whose two neighbours of the number lies within its
interval. The finest grid holds the number itself, so the search always ends there at the latest.
-/

namespace SyntaxForest.Numeric

/-- The positive number `digits * 10 ^ exponent`. -/
structure Decimal where
  digits : Nat
  exponent : Int
  deriving DecidableEq

/-- Which of two equally near grid points is taken. -/
inductive Tie
  | up
  | even
  deriving DecidableEq

/-- A number and the interval of reals that round to it, all three counted in quarter steps. The
bounds belong to the interval when `closed` holds. -/
structure Interval where
  below : Nat
  value : Nat
  above : Nat
  closed : Bool

namespace Interval

/-- The interval of a finite non-zero magnitude. Halfway points round to even, so they belong to it
when the significand is even; just above a power of two the gap below is half as wide. -/
def ofMagnitude (F : Format) (magnitude : Nat) : Interval :=
  let m := F.significand magnitude
  let step := Nat.pow 2 (F.shift magnitude) * Nat.pow 5 F.scale
  let narrow := m == F.fractions && 0 < F.shift magnitude
  { below := (4 * m - (if narrow then 1 else 2)) * step
    value := 4 * m * step
    above := (4 * m + 2) * step
    closed := m % 2 == 0 }

/-- Whether a point lies in the interval. -/
def contains (I : Interval) (x : Nat) : Bool :=
  if I.closed then I.below ≤ x && x ≤ I.above else I.below < x && x < I.above

/-- The nearest of the value's neighbours on the grid of `10 ^ j` steps that lie in the interval. -/
def neighbour? (I : Interval) (tie : Tie) (j : Nat) : Option Nat :=
  let grid := 4 * Nat.pow 10 j
  let down := I.value / grid
  match I.contains (down * grid), I.contains ((down + 1) * grid) with
  | false, false => none
  | true, false => some down
  | false, true => some (down + 1)
  | true, true =>
    let twice := 2 * (I.value % grid)
    if twice < grid then some down
    else if grid < twice then some (down + 1)
    else match tie with
      | .up => some (down + 1)
      | .even => some (down + down % 2)

/-- The first hit on the grids `10 ^ j`, `10 ^ (j - 1)`, …, as a point and its grid. -/
def search (I : Interval) (tie : Tie) : Nat → Nat × Nat
  | 0 => (I.value / 4, 0)
  | j + 1 =>
    match I.neighbour? tie (j + 1) with
    | some point => (point, j + 1)
    | none => I.search tie j

/-- A grid so coarse that only its points `0` and `10 ^ j` can be near the value. -/
def coarsest (I : Interval) : Nat :=
  (I.value.log2 + 1) * 30103 / 100000 + 1

end Interval

/-- The shortest decimal of a finite non-zero magnitude. -/
def Format.shortest (F : Format) (tie : Tie) (magnitude : Nat) : Decimal :=
  let I := Interval.ofMagnitude F magnitude
  let (point, j) := I.search tie I.coarsest
  { digits := point, exponent := (j : Int) - F.scale }

end SyntaxForest.Numeric
