import PulseTrain.Ledger.Basic

/-!
# Repetitions

A period is recorded by a function from the time at which it starts to the time at which it ends.
`markRepeat` runs it over and over, each time from where it ended before, and puts the whole run on
record. It works on any state that has a ledger in it. If a repetition is refused, the ledger goes back
to the length that it had before the first.
-/

namespace PulseTrain

/-- A state that has a ledger in it. -/
class HasLedger (σ : Type) where
  ledger : σ → Ledger
  setLedger : σ → Ledger → σ

instance : HasLedger Ledger where
  ledger l := l
  setLedger _ l := l

namespace Recorder

variable {σ ε : Type}

/-- A request on the ledger of a state. -/
def onLedger [HasLedger σ] {α : Type} (r : Recorder Ledger ε α) : Recorder σ ε α :=
  within HasLedger.ledger HasLedger.setLedger r

/-- The number of transitions on the ledger of a state. -/
def ledgerLength [HasLedger σ] : Recorder σ ε Nat := do
  pure (HasLedger.ledger (← current)).length

/-- Runs `period` `count` times, the first time as repetition number `number` from `t` on. The end of
the last run is returned. -/
def chain (period : Nat → Float → Recorder σ ε Float) :
    (count number : Nat) → (t : Float) → Recorder σ ε Float
  | 0, _, t => pure t
  | count + 1, number, t => do
    let stop ← period number t
    chain period count (number + 1) stop

/-- Records `repeats` repetitions of `period` from `start` on, and puts the run on record. The end of
the last one is returned. The duration of the period is that of its first repetition. -/
def markRepeat [HasLedger σ] (card : Card) (start : Float) (repeats : Nat)
    (period : Nat → Float → Recorder σ ε Float) : Recorder σ ε Float :=
  match repeats with
  | 0 => do
    warn (.emptyRepeat start)
    pure start
  | more + 1 => do
    let firstEntry ← ledgerLength
    let undo := fun s => HasLedger.setLedger s ((HasLedger.ledger s).truncate firstEntry)
    -- A refusal in any repetition also takes back what the repetitions before it recorded.
    let (first, stop) ← onRefusal undo do
      let first ← period 0 start
      let stop ← chain period more 1 first
      pure (first, stop)
    let endEntry ← ledgerLength
    let _ ← onLedger (Ledger.register card
      { start, period := first - start, stop, repeats := more + 1, firstEntry, endEntry })
    pure stop

end Recorder

end PulseTrain
