import PulseTrain.Fault
import PulseTrain.Levels.Basic
import PulseTrain.Transition

/-!
# Frames

A recording as the card will see it: a frame for each sample at which something is asked for, with the
level of every channel from that sample on.

1. `Change.ofTransition` puts a transition on the sample grid, or refuses it.
2. The changes are sorted by sample. The sort is stable, so of two requests for one channel at one
   sample the later-recorded one comes last, and wins.
3. `Change.merge` carries the state along and writes it down once per sample. It starts with all
   channels low at sample `0`.
4. `Frame.ofStates` gives each state its duration: up to the next one, and a single sample for the
   last.
-/

namespace PulseTrain

/-- A level and the sample at which a channel takes it. -/
structure Change where
  index : Nat
  channel : Nat
  level : Bool
deriving DecidableEq, Repr

/-- The state of all channels from sample `index` on, for `duration` samples. -/
structure Frame where
  index : Nat
  state : Levels
  duration : Nat
deriving DecidableEq, Repr

namespace Change

/-- The change that `t` asks for. The channel is looked at before the time. -/
def ofTransition (card : Card) (t : Transition Float) : Except Fault Change :=
  if t.channel < card.channels then
    match sampleIndex? card.clockRate card.units t.time with
    | some index => .ok ⟨index, t.channel, t.level⟩
    | none => .error (.unplaceableTime t.time)
  else .error (.channelOutOfRange t.channel card.channels)

/-- The order of changes on the sample grid. -/
def le (a b : Change) : Bool :=
  a.index ≤ b.index

/-- The state at every sample where there is one to write down, when the state at sample `index` is
`state` so far. -/
def merge (index : Nat) (state : Levels) : List Change → List (Nat × Levels)
  | [] => [(index, state)]
  | c :: cs =>
    if c.index = index then merge index (state.set c.channel c.level) cs
    else (index, state) :: merge c.index (state.set c.channel c.level) cs

/-- The states that changes in the order of their samples lead to. Without a change there is none. -/
def states (channels : Nat) : List Change → List (Nat × Levels)
  | [] => []
  | cs => merge 0 (Levels.low channels) cs

end Change

namespace Frame

/-- Each state lasts until the next; the last one for a sample. -/
def ofStates : List (Nat × Levels) → List Frame
  | [] => []
  | [(index, state)] => [⟨index, state, 1⟩]
  | (index, state) :: (next, state') :: rest =>
    ⟨index, state, next - index⟩ :: ofStates ((next, state') :: rest)

/-- The frames of changes in any order. -/
def ofChanges (channels : Nat) (cs : List Change) : List Frame :=
  ofStates (Change.states channels (cs.mergeSort Change.le))

/-- The frames of a recording. The first transition that cannot be placed is reported. -/
def ofTransitions (card : Card) (ts : List (Transition Float)) : Except Fault (List Frame) :=
  (ts.mapM (Change.ofTransition card)).map (ofChanges card.channels)

end Frame

end PulseTrain
