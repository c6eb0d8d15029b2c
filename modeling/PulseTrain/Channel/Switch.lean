import PulseTrain.Directory
import PulseTrain.Fault
import PulseTrain.Recorder
import PulseTrain.Transition

/-!
# Switches

A switch drives one channel, and its profiles are names of levels. A request is recorded `offset` later
than it asks for, but never before time zero; there is no spacing to keep, so a switch remembers nothing.
-/

namespace PulseTrain

/-- A channel with named levels. -/
structure Switch where
  name : String
  channel : Nat
  profiles : Directory String Bool
  offset : Float
deriving DecidableEq

namespace Switch

/-- The profiles of a switch that is given none: `on` is high, `off` is low. -/
def onOff : Directory String Bool :=
  Directory.ofList [("on", true), ("off", false)]

variable {σ : Type} [Sink Float σ]

/-- Records the level of a profile, requested for `t`, which is returned. -/
def profile (s : Switch) (t : Float) (name : String) : Recorder σ Fault Float := do
  match s.profiles.find? name with
  | none => Recorder.refuse (.unknownProfile s.name name)
  | some level =>
    let moved := t + s.offset
    if moved < 0 then
      Recorder.warn (.earlySwitch s.name s.channel t moved)
    let actual := if moved < 0 then 0 else moved
    Recorder.update (Sink.append · [⟨actual, s.channel, level⟩])
    pure t

end Switch

end PulseTrain
