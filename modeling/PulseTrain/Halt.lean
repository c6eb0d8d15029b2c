/-!
# Halts

A program can stop in the middle of a request, without an answer. A halt is why it did.
-/

namespace PulseTrain

/-- Why the program stopped. -/
inductive Halt where
  /-- A count did not fit, and the program was built to stop there. -/
  | overflow
  /-- An array was to have more entries than any array has. -/
  | tooLarge
  /-- Entries were asked for that the array does not have. -/
  | outOfBounds
deriving DecidableEq, Repr

/-- What is left behind. Nobody gets it as an answer. -/
def Halt.message : Halt → String
  | overflow => "a count does not fit in sixty-four bits"
  | tooLarge => "no array has as many entries"
  | outOfBounds => "the array does not have these entries"

end PulseTrain
