import PulseTrain.Artifact
import PulseTrain.Hold

/-!
# Playback

An artifact read back as what the card plays.

A `generate` plays all samples of its waveform but the last quantum, and then holds the first state of
that quantum. A `wait` holds on. What is played before the first `generate` is not known, so waits there
only move the start.

* `Waveforms.run` is what one waveform plays.
* `Tape` is the frames so far and a cursor at the sample that comes next. `Tape.run` plays a script on it,
  and neighbours with the same state come out as one frame.
* `Artifact.frames` is the frames of an artifact.
* `Signal` is the level of every channel at every sample, and `Signal.ofFrames` draws it: all low at
  first, and then high frame by frame.
-/

namespace PulseTrain

/-- The states that the waveform `name` plays for a cycle each, and the one that it ends in. -/
def Waveforms.run (ws : Waveforms) (quantum : Nat) (name : String) :
    Except PlaybackFault (List Levels × Levels) :=
  match ws.find? name with
  | none => .error (.undefinedWaveform name)
  | some samples =>
    let played := samples.length - quantum
    match samples.drop played with
    | [] => .error (.shortWaveform name samples.length quantum)
    | held :: _ =>
      if samples.length < quantum then .error (.shortWaveform name samples.length quantum)
      else .ok (samples.take played, held)

/-- The frames played so far, the latest one first, and the sample that comes next. -/
structure Tape where
  frames : List Frame
  cursor : Nat
deriving DecidableEq, Repr

namespace Tape

variable (arithmetic : Counter.Arithmetic)

/-- Moves the cursor on. -/
def advance (t : Tape) (cycles : Nat) : Except Halt Tape := do
  pure { t with cursor := ← arithmetic.count (t.cursor + cycles) }

/-- Begins a frame at the cursor, which stays. -/
def start (t : Tape) (state : Levels) (cycles : Nat) : Tape :=
  { t with frames := ⟨t.cursor, state, cycles⟩ :: t.frames }

/-- Goes on with the latest frame, if there is one. The cursor stays. -/
def extend (t : Tape) (cycles : Nat) : Except Halt Tape :=
  match t.frames with
  | [] => pure t
  | last :: before => do
    let duration ← arithmetic.count (last.duration + cycles)
    pure { t with frames := { last with duration } :: before }

/-- Goes on with the latest frame if it has this state and ends at the cursor, and begins a new one if it
does not. -/
def push (t : Tape) (state : Levels) (cycles : Nat) : Except Halt Tape :=
  match t.frames with
  | [] => pure (t.start state cycles)
  | last :: _ =>
    if last.state = state then do
      let stop ← arithmetic.count (last.index + last.duration)
      if stop = t.cursor then t.extend arithmetic cycles else pure (t.start state cycles)
    else pure (t.start state cycles)

/-- Plays one cycle of `state`. -/
def sample (t : Tape) (state : Levels) : Except Halt Tape := do
  (← t.push arithmetic state 1).advance arithmetic 1

/-- Plays a waveform: one cycle of each of `states`, and then `last`, which takes no time yet. -/
def play (t : Tape) (states : List Levels) (last : Levels) : Except Halt Tape := do
  (← states.foldlM (sample arithmetic) t).push arithmetic last 0

/-- Waits. -/
def wait (t : Tape) (cycles : Nat) : Except Halt Tape := do
  (← t.extend arithmetic cycles).advance arithmetic cycles

variable (ws : Waveforms) (quantum : Nat)

/-- Plays one instruction. -/
def step (t : Tape) : Instruction → Except PlaybackFault Tape
  | .generate name => do
    let (states, last) ← ws.run quantum name
    (t.play arithmetic states last).mapError .halted
  | .wait cycles => (t.wait arithmetic cycles).mapError .halted

/-- Plays instructions one after the other. -/
def run (t : Tape) (is : List Instruction) : Except PlaybackFault Tape :=
  is.foldlM (step arithmetic ws quantum) t

end Tape

/-- The frames that an artifact plays. -/
def Artifact.frames (a : Artifact) (arithmetic : Counter.Arithmetic) (quantum : Nat) :
    Except PlaybackFault (List Frame) := do
  let t ← Tape.run arithmetic a.waveforms quantum ⟨[], 0⟩ a.script.instructions
  pure t.frames.reverse

/-! ## Signals -/

/-- The level of a channel in a frame. A channel that the frame does not know is low. -/
def Frame.level (f : Frame) (channel : Nat) : Bool :=
  (f.state.get? channel).getD false

/-- The level of every channel at every sample: one row of `samples` levels per channel. -/
structure Signal where
  samples : Nat
  rows : List (List Bool)
deriving DecidableEq, Repr

namespace Signal

/-- The first number of entries that an array cannot have. -/
def limit : Nat := Nat.pow 2 63

/-- There is an array of so many channels and samples. An axis without entries does not count. -/
def Fits (channels samples : Nat) : Prop :=
  max 1 channels * max 1 samples < limit

instance (channels samples : Nat) : Decidable (Fits channels samples) :=
  inferInstanceAs (Decidable (_ < _))

/-- All channels low at all samples, if there is an array for that. -/
def low (channels samples : Nat) : Except Halt Signal :=
  if Fits channels samples then
    .ok ⟨samples, List.replicate channels (List.replicate samples false)⟩
  else .error .tooLarge

/-- The place on an axis that an index stands for. To an array an index has a sign, so the upper half of
the counts goes back from the end. -/
def place? (length index : Nat) : Option Nat :=
  if index < limit then some index
  else if Counter.bound - index ≤ length then some (length - (Counter.bound - index))
  else none

/-- The first place of a slice, and the place after the last. A slice that ends before it starts is
empty. -/
def slice? (length start stop : Nat) : Option (Nat × Nat) := do
  let first ← place? length start
  let after := max first (← place? length stop)
  if after ≤ length then some (first, after) else none

/-- The row with the samples from `start` up to `stop` high. -/
def fill (row : List Bool) (start stop : Nat) : Except Halt (List Bool) :=
  match slice? row.length start stop with
  | none => .error .outOfBounds
  | some (first, after) =>
    .ok (row.take first ++ List.replicate (after - first) true ++ row.drop after)

/-- Draws a frame: the channels that are high in it are high from its start up to its end. -/
def draw (arithmetic : Counter.Arithmetic) (sig : Signal) (f : Frame) : Except Halt Signal := do
  let stop ← arithmetic.count (f.index + f.duration)
  let rows ← sig.rows.zipIdx.mapM fun (row, channel) =>
    if f.level channel then fill row f.index stop else pure row
  pure { sig with rows }

/-- The signal of frames. It ends with the last of them. -/
def ofFrames (arithmetic : Counter.Arithmetic) (channels : Nat) (frames : List Frame) :
    Except Halt Signal := do
  let samples ← arithmetic.count (frames.getLast?.elim 0 fun f => f.index + f.duration)
  frames.foldlM (draw arithmetic) (← low channels samples)

end Signal

/-- The signal that an artifact makes the card play. -/
def Artifact.signal (a : Artifact) (card : Card) : Except PlaybackFault Signal := do
  let frames ← a.frames card.arithmetic card.quantum
  (Signal.ofFrames card.arithmetic card.channels frames).mapError .halted

end PulseTrain
