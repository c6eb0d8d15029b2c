import PulseTrain.Binary64.Basic
import PulseTrain.Text.Numeral

/-!
# The shortest decimal of a double

Many decimals read back as one double: those between the midpoints to its two neighbours, the
midpoints themselves included when the mantissa is even, since reading sends a tie there. Of these
`Decimal.shortest` takes one on the coarsest power-of-ten grid that has any, the nearer of two on
that grid, and the greater of two equally near.

Everything is measured in quarters of the mantissa's last bit, in which the midpoints are whole numbers
too.

* `Gap` is that interval, in whole numbers of one unit.
* `Gap.onGrid?` looks for a decimal at one power of ten: it can only be the one just below the double
  or the one just above.
* `Decimal.shortest` tries the powers from coarse to fine. The grid on which the double itself lies is
  among them, so the search never runs past it.
-/

namespace PulseTrain

/-- The number `coefficient · 10 ^ exponent`. -/
structure Decimal where
  coefficient : Nat
  exponent : Int
deriving DecidableEq, Repr

namespace Binary64

/-- The decimals that read back as one double, in units of `2 ^ unit`: those from `low` to `high`, the
two ends included if `closed`. `middle` is the double itself. -/
structure Gap where
  low : Nat
  middle : Nat
  high : Nat
  closed : Bool
  unit : Int

/-- The decimals that read back as `mantissa · 2 ^ exponent`. The neighbour below a power of two is
only half as far away as the one above, except at the bottom of the range. -/
def gap (mantissa : Nat) (exponent : Int) : Gap where
  low := 4 * mantissa - (if mantissa = Nat.pow 2 52 ∧ minExponent < exponent then 1 else 2)
  middle := 4 * mantissa
  high := 4 * mantissa + 2
  closed := mantissa % 2 = 0
  unit := exponent - 2

/-- `n / scale.2 · scale.1` units lie in the gap, where the fraction `scale.1 / scale.2` is cleared. -/
def Gap.holds (g : Gap) (times per : Nat) (n : Nat) : Bool :=
  if g.closed then g.low * times ≤ n * per ∧ n * per ≤ g.high * times
  else g.low * times < n * per ∧ n * per < g.high * times

/-- The multiple of `10 ^ power` in the gap that is nearest to its middle, if there is one; of two
equally near ones the greater. -/
def Gap.onGrid? (g : Gap) (power : Int) : Option Nat :=
  let times := Nat.pow 2 g.unit.toNat * Nat.pow 10 (-power).toNat
  let per := Nat.pow 2 (-g.unit).toNat * Nat.pow 10 power.toNat
  let below := g.middle * times / per
  let rest := g.middle * times % per
  match g.holds times per below, g.holds times per (below + 1) with
  | true, true => some (if 2 * rest < per then below else below + 1)
  | true, false => some below
  | false, true => some (below + 1)
  | false, false => none

end Binary64

namespace Decimal

open Binary64

/-- The exact decimal form of `mantissa · 2 ^ exponent`. -/
def exact (mantissa : Nat) (exponent : Int) : Decimal where
  coefficient := mantissa * Nat.pow 2 exponent.toNat * Nat.pow 5 (-exponent).toNat
  exponent := min exponent 0

/-- Tries the grids `10 ^ power`, `10 ^ (power - 1)`, … in turn, `tries` of them. -/
def search (g : Gap) (otherwise : Decimal) : (tries : Nat) → (power : Int) → Decimal
  | 0, _ => otherwise
  | tries + 1, power =>
    match g.onGrid? power with
    | some n => ⟨n, power⟩
    | none => search g otherwise tries (power - 1)

/-- The shortest decimal that reads back as `mantissa · 2 ^ exponent`. The first grid tried is coarser
than the number, the last is that of its exact form. -/
def shortest (mantissa : Nat) (exponent : Int) : Decimal :=
  let whole := mantissa * Nat.pow 2 exponent.toNat / Nat.pow 2 (-exponent).toNat
  let first : Int := (Numeral.digits 10 whole).length
  let last := min exponent 0
  search (gap mantissa exponent) (exact mantissa exponent) (first - last + 1).toNat first

end Decimal

end PulseTrain
