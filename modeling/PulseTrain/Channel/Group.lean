import PulseTrain.Channel.GreyCode
import PulseTrain.Channel.Switch

/-!
# Channel groups

A channel group is a grey-code group or a switch. Both are switched by profiles, and a sequence names
them alike.
-/

namespace PulseTrain

/-- A group of channels that is switched by profiles. -/
inductive ChannelGroup where
  | greyCode (group : GreyCode Float)
  | switch (switch : Switch)
deriving DecidableEq

namespace ChannelGroup

/-- The name of a group. -/
def name : ChannelGroup → String
  | greyCode g => g.name
  | switch s => s.name

/-- The channels that a group drives, in the order of its bits. -/
def channels : ChannelGroup → List Nat
  | greyCode g => g.channels
  | switch s => [s.channel]

/-- The group as it was created. -/
def reset : ChannelGroup → ChannelGroup
  | greyCode g => greyCode g.reset
  | switch s => switch s

variable {σ : Type} [Sink Float σ]

/-- A request to a group, by its kind. -/
def dispatch (onGreyCode : Recorder (GreyCode Float × σ) Fault Float)
    (onSwitch : Switch → Recorder σ Fault Float) : Recorder (ChannelGroup × σ) Fault Float :=
  fun (group, sink) =>
    match group with
    | greyCode g =>
      let o := onGreyCode (g, sink)
      ⟨o.result, (greyCode o.state.1, o.state.2), o.warnings⟩
    | switch s =>
      let o := onSwitch s sink
      ⟨o.result, (switch s, o.state), o.warnings⟩

/-- Switches a group to a profile. -/
def profile (t : Float) (name : String) : Recorder (ChannelGroup × σ) Fault Float :=
  dispatch (GreyCode.profile t name) (·.profile t name)

/-- Writes every channel of a profile. A switch has only one, and always writes it. -/
def force (t : Float) (name : String) : Recorder (ChannelGroup × σ) Fault Float :=
  dispatch (GreyCode.forceProfile t name) (·.profile t name)

end ChannelGroup

end PulseTrain
