import PulseTrain.Counter

/-!
# Waits

The card waits in multiples of its quantum, and no single `wait` instruction is longer than its limit.

* `Wait.cover` rounds a duration up: a wait that is too short would put the card ahead of the sequence.
* `Wait.count` is the wait that a program comes to, which stops if the wait does not fit in a counter or
  goes on with `Wait.align`.
* `Wait.split` covers a wait by as many instructions of full length as fit, and one for the rest.
-/

namespace PulseTrain.Wait

/-- The least multiple of `quantum` that is at least `duration`. -/
def cover (quantum duration : Nat) : Nat :=
  (duration + (quantum - 1)) / quantum * quantum

/-- What a counter keeps of the least multiple of `quantum` that is at least `duration`. -/
def align (quantum duration : Nat) : Nat :=
  cover quantum duration % Counter.bound

/-- The wait for `duration` that a program comes to. -/
def count (arithmetic : Counter.Arithmetic) (quantum duration : Nat) : Except Halt Nat :=
  arithmetic.count (cover quantum duration)

/-- The lengths of the instructions that together wait for `cycles`. -/
def split (limit cycles : Nat) : List Nat :=
  List.replicate (cycles / limit) limit ++ if cycles % limit = 0 then [] else [cycles % limit]

example : split 4 10 = [4, 4, 2] ∧ split 4 8 = [4, 4] ∧ split 4 0 = [] := by decide

end PulseTrain.Wait
