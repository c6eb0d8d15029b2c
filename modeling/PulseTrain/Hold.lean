import PulseTrain.Frame
import PulseTrain.Wait

/-!
# Holds

A hold is a state that stays for a number of cycles. What is played is a list of holds, one after the
other; when each of them starts follows from those before it.

* `Frame.held` is a frame with its duration rounded up to what the card can wait. If the program goes on
  with the wait, it is `Frame.hold`.
* `Hold.unroll` is the samples of a waveform that plays a list of holds.
-/

namespace PulseTrain

/-- A state that stays for `cycles` cycles. -/
structure Hold where
  state : Levels
  cycles : Nat
deriving DecidableEq, Repr

/-- A frame for as long as the card can hold it. -/
def Frame.hold (quantum : Nat) (f : Frame) : Hold where
  state := f.state
  cycles := Wait.align quantum f.duration

/-- A frame for as long as the program comes to hold it. -/
def Frame.held (arithmetic : Counter.Arithmetic) (quantum : Nat) (f : Frame) : Except Halt Hold := do
  pure ⟨f.state, ← Wait.count arithmetic quantum f.duration⟩

namespace Hold

/-- The samples of a hold. -/
def samples (h : Hold) : List Levels :=
  List.replicate h.cycles h.state

/-- The samples of a waveform that plays `holds`. Each hold but the last takes all of its cycles. The
last takes one quantum: after the waveform its state stays through the waits that follow. -/
def unroll (quantum : Nat) : List Hold → List Levels
  | [] => []
  | [last] => List.replicate quantum last.state
  | h :: next :: rest => h.samples ++ unroll quantum (next :: rest)

end Hold

end PulseTrain
