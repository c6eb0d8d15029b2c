import PulseTrain.Channel.Group
import PulseTrain.Compile
import PulseTrain.Ledger.Repeat
import PulseTrain.Playback

/-!
# The sequencer

A sequencer records and compiles the output of one card: groups are registered once, an iteration is
recorded with `profile`, `force`, `raw` and `markRepeat`, and `compile` produces its artifact and
starts the next iteration. If compiling is refused, nothing is lost.
-/

namespace PulseTrain

/-- A card, the groups on its channels, and what the current iteration has recorded. -/
structure Sequencer where
  card : Card
  ledger : Ledger := {}
  groups : Directory String ChannelGroup := ∅
deriving DecidableEq

instance : HasLedger Sequencer where
  ledger s := s.ledger
  setLedger s l := { s with ledger := l }

namespace Sequencer

/-- Refuses a channel that the card does not have. -/
def checkChannel (channel : Nat) : Recorder Sequencer Fault Unit := do
  let s ← Recorder.current
  if channel < s.card.channels then pure ()
  else Recorder.refuse (.channelOutOfRange channel s.card.channels)

/-! ## Groups -/

/-- Registers a group under its name, which must be free. Every channel of it must be one of the
card's. -/
def add (group : ChannelGroup) : Recorder Sequencer Fault Unit := do
  let s ← Recorder.current
  if (s.groups.find? group.name).isSome then
    Recorder.refuse (.duplicateGroup group.name)
  else
    group.channels.forM checkChannel
    Recorder.update fun s => { s with groups := s.groups.insert group.name group }

/-- Registers a grey-code group. -/
def addGreyCode (name : String) (channels : List Nat) (profiles : Directory String (List Bool))
    (t spacing : Float) : Recorder Sequencer Fault Unit := do
  let group ← Recorder.ofExcept (GreyCode.create name channels profiles t spacing)
  add (.greyCode group)

/-- Registers a switch. -/
def addSwitch (name : String) (channel : Nat) (profiles : Directory String Bool) (offset : Float) :
    Recorder Sequencer Fault Unit :=
  add (.switch { name, channel, profiles, offset })

/-- A request to the group that is registered under `name`. -/
def onGroup (name : String) (r : Recorder (ChannelGroup × Ledger) Fault Float) :
    Recorder Sequencer Fault Float := do
  let s ← Recorder.current
  match s.groups.find? name with
  | none => Recorder.refuse (.unknownGroup name)
  | some group =>
    Recorder.within (fun s => (group, s.ledger))
      (fun s (g, l) => { s with ledger := l, groups := s.groups.insert name g }) r

/-! ## Recording -/

/-- Switches a group to a profile. The time of the last change is returned, which is later than `t` if
the changes had to be spaced out. -/
def profile (group : String) (t : Float) (name : String) : Recorder Sequencer Fault Float :=
  onGroup group (ChannelGroup.profile t name)

/-- Writes every channel of a profile. -/
def force (group : String) (t : Float) (name : String) : Recorder Sequencer Fault Float :=
  onGroup group (ChannelGroup.force t name)

/-- Records one transition. -/
def raw (t : Float) (channel : Nat) (level : Bool) : Recorder Sequencer Fault Float := do
  checkChannel channel
  Recorder.onLedger (Ledger.raw t channel level)

/-- Records repetitions of a period on the sequencer's card. -/
def markRepeat {ε : Type} (start : Float) (repeats : Nat)
    (period : Nat → Float → Recorder Sequencer ε Float) : Recorder Sequencer ε Float := do
  let s ← Recorder.current
  Recorder.markRepeat s.card start repeats period

/-! ## Compiling -/

/-- The artifact of what is recorded so far. -/
def artifact (s : Sequencer) : Except Fault Artifact :=
  Artifact.ofLedger s.card s.ledger

/-- The signal of what is recorded so far. -/
def signal (s : Sequencer) : Except Fault Signal := do
  let a ← s.artifact
  (a.signal s.card).mapError .playback

/-- The sequencer with an empty ledger and all groups as they were created. -/
def fresh (s : Sequencer) : Sequencer :=
  { s with ledger := {}, groups := s.groups.map ChannelGroup.reset }

/-- Starts a fresh iteration. -/
def clear {ε : Type} : Recorder Sequencer ε Unit :=
  Recorder.update fresh

/-- The artifact of the iteration, after which a fresh one starts. -/
def compile : Recorder Sequencer Fault Artifact := do
  let a ← Recorder.ofExcept (← Recorder.current).artifact
  clear
  pure a

end Sequencer

end PulseTrain
