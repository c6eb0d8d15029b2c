/-!
# The total order of doubles

`<` on doubles leaves what is not a number incomparable and holds the two zeros equal. Where a list
is sorted by doubles every pair must be comparable, so it is sorted by `totalKey`: the bits of a
non-negative double count up from zero, those of a negative one count down from minus one. Negative
zero comes before zero, and what is not a number comes last.

A double that is not a number has no sign here: all of them are one. Where they keep their sign bit, those
with the bit set come before everything else.
-/

namespace PulseTrain.Binary64

/-- The place of `x` in the total order. What is not a number has the last place, since its sign bit is not
kept. -/
def totalKey (x : Float) : Int :=
  let bits := x.toBits.toNat
  if bits < Nat.pow 2 63 then bits else (Nat.pow 2 63 : Int) - 1 - bits

/-- `x` comes no later than `y` in the total order. -/
def totalLE (x y : Float) : Bool :=
  decide (totalKey x ≤ totalKey y)

example : totalLE (-0.0) 0.0 = true ∧ totalLE 0.0 (-0.0) = false := by decide +kernel

end PulseTrain.Binary64
