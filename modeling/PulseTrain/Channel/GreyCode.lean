import PulseTrain.Directory
import PulseTrain.Fault
import PulseTrain.Recorder
import PulseTrain.Transition

/-!
# Grey-code groups

A grey-code group drives several channels, and together their levels select one of a set of profiles.
All of them cannot change at once: if two did, the hardware could latch a profile that nobody asked
for. So a group changes one channel after the other, with `spacing` between two changes, and only those
that have to change.

Only the time of the group's own last change is remembered. Requests to one group are meant to come in
the order of their times.

* `GreyCode.earliest` is when the next change may come.
* `GreyCode.train` spaces a list of changes out.
* `set` and `force` record the changes to a new bit vector: those that differ, or all.
-/

namespace PulseTrain

/-- Channels that select one of several profiles. `bits` is what they are taken to be at now, and
`lastChange` the time of the latest change; both started as a reset leaves them. -/
structure GreyCode (τ : Type) where
  name : String
  channels : List Nat
  profiles : Directory String (List Bool)
  bits : List Bool
  lastChange : τ
  initialTime : τ
  spacing : τ
deriving DecidableEq

namespace GreyCode

/-- The spacing of a group that asks for none. -/
def defaultSpacing : Float := 1e-4

/-- How a bit vector without a name is reported. -/
def bitsText (bits : List Bool) : String :=
  "[" ++ ", ".intercalate (bits.map fun bit => if bit then "true" else "false") ++ "]"

variable {τ : Type}

/-- A group with all channels low, the time of whose last change is taken to be `t`. Every profile has
one bit for each channel; the first that has not is reported. -/
def create (name : String) (channels : List Nat) (profiles : Directory String (List Bool))
    (t spacing : τ) : Except Fault (GreyCode τ) :=
  match profiles.entries.find? fun (_, bits) => bits.length ≠ channels.length with
  | some (profile, bits) => .error (.profileWidth name profile bits.length channels.length)
  | none => .ok {
      name, channels, profiles, spacing
      bits := List.replicate channels.length false
      lastChange := t
      initialTime := t }

/-- The group as it was created. -/
def reset (g : GreyCode τ) : GreyCode τ :=
  { g with bits := List.replicate g.channels.length false, lastChange := g.initialTime }

/-! ## Spacing -/

variable [Add τ] [LE τ] [DecidableLE τ]

/-- When a change requested for `t` comes: one spacing later if the last one was too recent. -/
def earliest (g : GreyCode τ) (t : τ) : τ :=
  if t ≤ g.lastChange + g.spacing then t + g.spacing else t

/-- The time at which a change requested for `t` comes, and the group after it. -/
def delay (g : GreyCode τ) (t : τ) : τ × GreyCode τ :=
  (g.earliest t, { g with lastChange := g.earliest t })

/-- The changes that take each of `targets` to its level one after the other, the first of them
requested for `t`; the time of the last; and the group after it. -/
def train (g : GreyCode τ) (t : τ) :
    List (Nat × Bool) → List (Transition τ) × τ × GreyCode τ
  | [] => ([], t, g)
  | (channel, level) :: targets =>
    let (t', g') := g.delay t
    let (rest, last) := train g' t' targets
    (⟨t', channel, level⟩ :: rest, last)

/-- The channels whose bit in `bits` is not what it is now, with that bit. -/
def differing (g : GreyCode τ) (bits : List Bool) : List (Nat × Bool) :=
  ((g.channels.zip (g.bits.zip bits)).filter fun (_, now, next) => now ≠ next).map
    fun (channel, _, next) => (channel, next)

/-! ## Requests -/

variable {σ : Type} [Sink τ σ]

/-- Records the changes to `targets`, requested for `t`, and takes the bits to be `bits` from then on.
The time of the last change is returned, or `t` if there is none. -/
def write (targets : GreyCode τ → List (Nat × Bool)) (t : τ) (bits : List Bool) :
    Recorder (GreyCode τ × σ) Fault τ := do
  let (g, _) ← Recorder.current
  if bits.length ≠ g.channels.length then
    Recorder.refuse (.profileWidth g.name (bitsText bits) bits.length g.channels.length)
  else
    let (changes, last, moved) := g.train t (targets g)
    Recorder.update fun (_, sink) => ({ moved with bits }, Sink.append sink changes)
    pure last

/-- Changes the channels that differ from `bits`. -/
def set (t : τ) (bits : List Bool) : Recorder (GreyCode τ × σ) Fault τ :=
  write (·.differing bits) t bits

/-- Writes every channel, whatever it is at. -/
def force (t : τ) (bits : List Bool) : Recorder (GreyCode τ × σ) Fault τ :=
  write (·.channels.zip bits) t bits

/-- The bits of a profile. -/
def lookup (profile : String) : Recorder (GreyCode τ × σ) Fault (List Bool) := do
  let (g, _) ← Recorder.current
  match g.profiles.find? profile with
  | some bits => pure bits
  | none => Recorder.refuse (.unknownProfile g.name profile)

/-- Changes the channels that differ from a profile. -/
def profile (t : τ) (name : String) : Recorder (GreyCode τ × σ) Fault τ := do
  set t (← lookup name)

/-- Writes every channel of a profile. -/
def forceProfile (t : τ) (name : String) : Recorder (GreyCode τ × σ) Fault τ := do
  force t (← lookup name)

end GreyCode

end PulseTrain
