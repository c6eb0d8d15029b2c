import PulseTrain.Sequencer

/-!
# A demonstration

A short sequence on a card with forty channels: three pins that select the profile of a trap's light, a
shutter, and five pulses on channel `0`. `Demonstration.texts` is the size of its signal, its script,
and the waveforms that the script plays.
-/

namespace PulseTrain.Demonstration

/-- The card: a megasample per second, and times in milliseconds. -/
def settings : Settings :=
  { clockRate := 1e6, units := 1e-3, channels := 40, stableWait := 4 }

/-- The profiles of the trap's light. -/
def trapProfiles : Directory String (List Bool) :=
  Directory.ofList
    [("MOT", [false, false, false]), ("PGC", [true, false, false]), ("off", [false, true, false])]

/-- One pulse on channel `0`. -/
def pulse (t : Float) : Recorder Sequencer Fault Float := do
  let _ ← Sequencer.raw t 0 true
  let _ ← Sequencer.raw (t + 0.01) 0 false
  pure (t + 0.1)

/-- Records the sequence. -/
def record : Recorder Sequencer Fault Unit := do
  Sequencer.addGreyCode "mot" [32, 33, 34] trapProfiles 0 1e-3
  Sequencer.addSwitch "shutter" 36 Switch.onOff 0
  let t ← Sequencer.force "mot" 0 "MOT"
  let _ ← Sequencer.profile "shutter" t "on"
  let t ← Sequencer.profile "mot" 1 "PGC"
  let t ← Sequencer.markRepeat (t + 0.5) 5 fun _ => pulse
  let _ ← Sequencer.profile "mot" t "off"
  let _ ← Sequencer.profile "shutter" (t + 2) "off"

/-- What is shown of a signal and of the artifact that it comes from. -/
def report (signal : Signal) (a : Artifact) : List String :=
  ("[" ++ Numeral.text signal.rows.length ++ ", " ++ Numeral.text signal.samples ++ "]")
    :: a.script.text
    :: a.waveforms.toList.map fun w =>
      w.name ++ " (" ++ Numeral.text w.samples.length ++ " samples)"

/-- Records the sequence, compiles it and reports on it. -/
def session : Recorder Sequencer Fault (List String) := do
  record
  let signal ← Recorder.ofExcept (← Recorder.current).signal
  let a ← Sequencer.compile
  pure (report signal a)

/-- The report, or the message of the fault that prevented it. Each text ends a line when printed. -/
def texts : Except String (List String) :=
  match Card.ofSettings settings with
  | .error f => .error (Fault.settings f).message
  | .ok card => (session { card }).result.mapError Fault.message

end PulseTrain.Demonstration
