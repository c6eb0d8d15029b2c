import PulseTrain.Binary64.Shortest

/-!
# Doubles as text

Messages write a double with the fewest digits that read back as it, all of them in place: no
exponent, however many zeros that takes, and no fraction on a whole number. The sign of a zero is
written.
-/

namespace PulseTrain

/-- The digits of `d` in their places: zeros are added on the right of a whole number, and a point is
set before the last `-exponent` digits of a fraction, which has at least one digit before it. -/
def Decimal.positional (d : Decimal) : List Char :=
  let digits := Numeral.decimal d.coefficient
  match d.exponent with
  | .ofNat zeros => digits ++ List.replicate zeros '0'
  | .negSucc n =>
    let places := n + 1
    let padded := List.replicate (places + 1 - digits.length) '0' ++ digits
    padded.take (padded.length - places) ++ '.' :: padded.drop (padded.length - places)

namespace Binary64

/-- The text of a double taken apart. -/
def positional : Binary64 → List Char
  | nan => "NaN".toList
  | infinite negative => signed negative "inf".toList
  | finite negative 0 _ => signed negative ['0']
  | finite negative (m + 1) exponent =>
    signed negative (Decimal.shortest (m + 1) exponent).positional
where
  signed (negative : Bool) (magnitude : List Char) : List Char :=
    if negative then '-' :: magnitude else magnitude

/-- The text of `x` in a message. -/
def text (x : Float) : String :=
  String.ofList (ofFloat x).positional

example : text 1e-7 = "0.0000001" ∧ text 1e21 = "1000000000000000000000" := by decide +kernel
example : text (-0.0) = "-0" ∧ text (-2.5) = "-2.5" := by decide +kernel
example : text 1125899906842624.25 = "1125899906842624.3" := by decide +kernel

end Binary64

end PulseTrain
