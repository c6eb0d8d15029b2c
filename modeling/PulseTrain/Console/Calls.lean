import PulseTrain.Console.Argument
import PulseTrain.Sequencer

/-!
# Calls from outside

The sequencer's requests with arguments from outside. All arguments are read, in the order of the
parameters, before the sequencer sees the request.

* `entries` puts a table together, which is done before any argument is read.
* `bitTable` and `levelTable` read it entry by entry: first the value, then the name for bit vectors; the
  other way round for levels.
-/

namespace PulseTrain.Console

/-- A request from outside. -/
abbrev Call (α : Type) := Recorder Sequencer Refusal α

/-- Hands a request to the sequencer. -/
def submit {α : Type} (r : Recorder Sequencer Fault α) : Call α :=
  r.mapError .fault

/-- Hands the arguments of a request over once they are read. -/
def reading {α β : Type} (argument : Except Refusal α) (call : α → Call β) : Call β := do
  call (← Recorder.ofExcept argument)

/-- A sequencer for the card with these settings. -/
def launch (clockRate units : Float) (channels quantum stableWait maxWait : Scalar)
    (arithmetic : Counter.Arithmetic := .wrapping) : Except Refusal Sequencer := do
  let channels ← channels.count
  let quantum ← quantum.count
  let stableWait ← stableWait.count
  let maxWait ← maxWait.count
  let settings : Settings := { clockRate, units, channels, quantum, stableWait, maxWait }
  let card ← (Card.ofSettings settings arithmetic).mapError fun f => .fault (.settings f)
  pure { card }

/-- The entries of a table. A key given twice has one entry, with the later value. What has parts is no
key. -/
def entries {α : Type} (given : List (Scalar × α)) : Except Refusal (Directory Scalar α) :=
  if given.any (·.1 = .other) then .error .wrongType
  else .ok (Directory.ofList (given.map fun (key, value) => (key.key, value)))

/-- A table of bit vectors by name. -/
def bitTable (table : Directory Scalar Argument) :
    Except Refusal (Directory String (List Bool)) := do
  let read ← table.entries.mapM fun (key, value) => do
    -- The value is turned away before the name is looked at.
    let bits ← value.bits
    pure (← key.name, bits)
  pure (Directory.ofList read)

/-- A table of levels by name. -/
def levelTable (table : Directory Scalar Scalar) : Except Refusal (Directory String Bool) := do
  let read ← table.entries.mapM fun (key, value) => do
    let name ← key.name
    pure (name, ← value.bit)
  pure (Directory.ofList read)

/-- Registers a grey-code group. -/
def addGreyCode (name : String) (channels : Argument) (profiles : List (Scalar × Argument))
    (t spacing : Float) : Call Unit :=
  reading (entries profiles) fun table =>
    reading channels.counts fun channels =>
      reading (bitTable table) fun profiles =>
        submit (Sequencer.addGreyCode name channels profiles t spacing)

/-- Registers a switch, which is on and off if it is given no profiles. -/
def addSwitch (name : String) (channel : Scalar) (profiles : Option (List (Scalar × Scalar)))
    (offset : Float) : Call Unit :=
  reading (profiles.mapM entries) fun table =>
    reading channel.count fun channel =>
      reading (table.elim (.ok Switch.onOff) levelTable) fun profiles =>
        submit (Sequencer.addSwitch name channel profiles offset)

/-- Switches a group to a profile. -/
def profile (group : String) (t : Float) (name : String) : Call Float :=
  submit (Sequencer.profile group t name)

/-- Writes every channel of a profile. -/
def force (group : String) (t : Float) (name : String) : Call Float :=
  submit (Sequencer.force group t name)

/-- Records one transition. -/
def raw (t : Float) (channel level : Scalar) : Call Float :=
  reading channel.count fun channel =>
    reading level.level fun level =>
      submit (Sequencer.raw t channel level)

/-- Records repetitions of a period. -/
def markRepeat (start : Float) (repeats : Scalar) (period : Nat → Float → Call Float) : Call Float :=
  reading repeats.count fun repeats => Sequencer.markRepeat start repeats period

/-- The artifact of what is recorded so far. -/
def artifact : Call Artifact := do
  reading ((← Recorder.current).artifact.mapError .fault) pure

/-- The artifact of the iteration, after which a fresh one starts. -/
def compile : Call Artifact :=
  submit Sequencer.compile

end PulseTrain.Console
