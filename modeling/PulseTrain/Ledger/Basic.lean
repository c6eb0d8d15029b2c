import PulseTrain.Card
import PulseTrain.Recorder
import PulseTrain.Transition

/-!
# The ledger

The ledger keeps the transitions of one iteration in the order in which they were recorded, which later
decides between two requests for one channel at one sample. Beside them it keeps which stretches were
recorded as repetitions of one period. A region changes nothing about what is played: every repetition
is recorded in full.
-/

namespace PulseTrain

/-- A finished run of repetitions as it was measured. The transitions that it recorded are the ledger's
entries from `firstEntry` up to, and not including, `endEntry`. -/
structure Span where
  start : Float
  period : Float
  stop : Float
  repeats : Nat
  firstEntry : Nat := 0
  endEntry : Nat := 0
deriving DecidableEq, Repr

/-- A run of repetitions on record, with its period in whole cycles. -/
structure Region extends Span where
  cycles : Nat
deriving DecidableEq, Repr

/-- What has been recorded, in the order of arrival. -/
structure Ledger where
  transitions : List (Transition Float) := []
  regions : List Region := []
deriving DecidableEq, Repr

namespace Ledger

/-- The number of transitions. -/
def length (l : Ledger) : Nat :=
  l.transitions.length

/-- Records transitions after those already there. -/
def append (l : Ledger) (ts : List (Transition Float)) : Ledger :=
  { l with transitions := l.transitions ++ ts }

instance : Sink Float Ledger where
  append := append

/-- Drops all transitions but the first `length`, and the regions that reach beyond them. -/
def truncate (l : Ledger) (length : Nat) : Ledger where
  transitions := l.transitions.take length
  regions := l.regions.filter (·.endEntry ≤ length)

/-- Records one transition. The time it is recorded for is returned. -/
def raw {ε : Type} (t : Float) (channel : Nat) (level : Bool) : Recorder Ledger ε Float := do
  Recorder.update (·.append [⟨t, channel, level⟩])
  pure t

/-- Puts a run of repetitions on record, unless there is a region that starts at the same time. A
period that is not a whole number of samples, or that is too short to be waited for, leaves a
warning. -/
def register {ε : Type} (card : Card) (span : Span) : Recorder Ledger ε (Option Region) := do
  let l ← Recorder.current
  if l.regions.any (·.start == span.start) then
    pure none
  else
    let samples := card.samples span.period
    let cycles := cycleCount samples
    if !Binary64.isNearWhole samples then
      Recorder.warn (.fractionalPeriod span.start span.period samples)
    if cycles < card.stableWait then
      Recorder.warn (.shortPeriod span.start cycles card.stableWait)
    let region : Region := { span with cycles }
    Recorder.update fun l => { l with regions := l.regions ++ [region] }
    pure (some region)

end Ledger

end PulseTrain
