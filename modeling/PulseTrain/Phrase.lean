import PulseTrain.Recorder

/-!
# Phrases

A phrase is a period written down as data, for `markRepeat` to run: requests, each cued by the start of
the repetition or by the time that the latest request before it returned, and a cue for the end.
-/

namespace PulseTrain

/-- A time relative to the start of a phrase or to the latest time in it. -/
structure Cue where
  fromLatest : Bool := false
  offset : Float := 0

/-- The time of a cue. -/
def Cue.time (c : Cue) (start latest : Float) : Float :=
  (if c.fromLatest then latest else start) + c.offset

/-- A request in a phrase. One that is cued is handed its time, and returns the latest time from then
on. -/
inductive Act (σ ε : Type) where
  | cued (cue : Cue) (request : Float → Recorder σ ε Float)
  | plain (request : Recorder σ ε Unit)

/-- Requests and the end of a phrase. `conclude` has the last word on the end time, by the number of
the repetition. -/
structure Phrase (σ ε : Type) where
  acts : List (Act σ ε) := []
  stop : Cue := {}
  conclude : Nat → Float → Except ε Float := fun _ t => .ok t

namespace Phrase

variable {σ ε : Type}

/-- Runs requests one after the other, in a phrase that began at `start`. The latest time is
returned. -/
def play (start latest : Float) : List (Act σ ε) → Recorder σ ε Float
  | [] => pure latest
  | .cued cue request :: acts => do
    let t ← request (cue.time start latest)
    play start t acts
  | .plain request :: acts => do
    request
    play start latest acts

/-- The period that a phrase stands for. -/
def period (p : Phrase σ ε) (number : Nat) (start : Float) : Recorder σ ε Float := do
  let latest ← play start start p.acts
  Recorder.ofExcept (p.conclude number (p.stop.time start latest))

end Phrase

end PulseTrain
