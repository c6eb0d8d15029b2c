/-!
# Doubles as integers

Times and sample rates are doubles. Every decision about one that is not plain arithmetic — which
sample it rounds to, how it is written — is taken on the integers it is made of.

* `Binary64` is a double taken apart: not a number, an infinity, or `±mantissa · 2 ^ exponent`.
* `Binary64.ofFloat` takes a `Float` apart by its bits: one sign bit, eleven exponent bits, fifty-two
  fraction bits.
-/

namespace PulseTrain

/-- A double taken apart. Both zeros have mantissa `0`, and their sign is kept. -/
inductive Binary64 where
  | nan
  | infinite (negative : Bool)
  | finite (negative : Bool) (mantissa : Nat) (exponent : Int)
deriving DecidableEq, Repr

namespace Binary64

/-- The exponent of the least significant bit of the smallest doubles. -/
def minExponent : Int := -1074

/-- Takes `x` apart. A zero exponent field has no hidden leading bit; the field of all ones holds the
infinities and, with any fraction, what is not a number. -/
def ofFloat (x : Float) : Binary64 :=
  let bits := x.toBits.toNat
  let negative := decide (Nat.pow 2 63 ≤ bits)
  let field : Nat := bits / Nat.pow 2 52 % Nat.pow 2 11
  let fraction : Nat := bits % Nat.pow 2 52
  if field = 2047 then
    if fraction = 0 then .infinite negative else .nan
  else if field = 0 then
    .finite negative fraction minExponent
  else
    .finite negative (Nat.pow 2 52 + fraction) ((field : Int) - 1075)

example : ofFloat 1.5 = .finite false (3 * 2 ^ 51) (-52) := by decide +kernel
example : ofFloat (-0.0) = .finite true 0 (-1074) := by decide +kernel

end Binary64

end PulseTrain
