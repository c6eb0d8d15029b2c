import PulseTrain.Binary64.Basic

/-!
# From doubles to whole numbers

A time becomes a whole number of samples by rounding to the nearest, and a half goes to the even
neighbour: `roundHalfEven` on a quotient, `Binary64.nearest?` on a double taken apart, and
`Binary64.nearestWhole?` on a `Float`. `isNearWhole` says whether there was anything to round.
-/

namespace PulseTrain

/-- The whole number nearest to `numerator / denominator`; a half goes to the even neighbour. -/
def roundHalfEven (numerator denominator : Nat) : Nat :=
  let quotient := numerator / denominator
  let rest := numerator % denominator
  if 2 * rest < denominator then quotient
  else if denominator < 2 * rest then quotient + 1
  else quotient + quotient % 2

namespace Binary64

/-- A magnitude with its sign. -/
def signed (negative : Bool) (magnitude : Nat) : Int :=
  if negative then -magnitude else magnitude

/-- The whole number nearest to a finite double, a half going to the even neighbour. -/
def nearest? : Binary64 → Option Int
  | finite negative mantissa (.ofNat e) => some (signed negative (mantissa * Nat.pow 2 e))
  | finite negative mantissa (.negSucc e) =>
    some (signed negative (roundHalfEven mantissa (Nat.pow 2 (e + 1))))
  | _ => none

/-- The whole number that a double is, if it is one. -/
def whole? : Binary64 → Option Int
  | finite negative mantissa (.ofNat e) => some (signed negative (mantissa * Nat.pow 2 e))
  | finite negative mantissa (.negSucc e) =>
    if mantissa % Nat.pow 2 (e + 1) = 0 then some (signed negative (mantissa / Nat.pow 2 (e + 1)))
    else none
  | _ => none

/-- The whole number nearest to `x`, if `x` is finite. -/
def nearestWhole? (x : Float) : Option Int :=
  (ofFloat x).nearest?

/-- A sample count this close to a whole number counts as one. -/
def wholeTolerance : Float := 1e-6

/-- `x` is finite and within `wholeTolerance` of a whole number. The difference to the nearest whole
number is itself a double, so the comparison is exact. -/
def isNearWhole (x : Float) : Bool :=
  match nearestWhole? x with
  | some n => (x - Float.ofInt n).abs ≤ wholeTolerance
  | none => false

example : nearestWhole? 2.5 = some 2 ∧ nearestWhole? 3.5 = some 4 := by decide +kernel
example : nearestWhole? (-0.5) = some 0 := by decide +kernel
example : (ofFloat (-0.0)).whole? = some 0 ∧ (ofFloat 2.5).whole? = none := by decide +kernel

end Binary64

end PulseTrain
