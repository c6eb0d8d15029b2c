import PulseTrain.Card

/-!
# Faults

Everything that can be refused, by cause. Each type has one `message`, which is the whole text a
user sees.

* `PlaybackFault` — a script cannot be played with the waveforms it comes with.
* `Fault` — a card, a group or a request is refused, or a recording cannot be compiled.

A request during which the program halts is not answered. Either type has a case for that, so that
whatever is proved of the outcomes of a request covers it.
-/

namespace PulseTrain

/-- Why a script cannot be played. -/
inductive PlaybackFault where
  | undefinedWaveform (name : String)
  | shortWaveform (name : String) (samples quantum : Nat)
  | halted (reason : Halt)
deriving DecidableEq, Repr

/-- The fault as it is reported. -/
def PlaybackFault.message : PlaybackFault → String
  | undefinedWaveform name =>
    "script references waveform '" ++ name ++ "' which is not defined"
  | shortWaveform name samples quantum =>
    "waveform '" ++ name ++ "' has " ++ Numeral.text samples
      ++ " samples, fewer than one alignment quantum (" ++ Numeral.text quantum ++ ")"
  | halted reason => reason.message

/-- Why a request is refused, or a recording cannot be compiled or played. -/
inductive Fault where
  | settings (fault : SettingsFault)
  | unknownProfile (group profile : String)
  | unknownGroup (group : String)
  | duplicateGroup (group : String)
  | profileWidth (group profile : String) (bits channels : Nat)
  | channelOutOfRange (channel channels : Nat)
  | unplaceableTime (time : Float)
  | overlappingRegions (start stop next : Float)
  | playback (fault : PlaybackFault)
  | halted (reason : Halt)
deriving DecidableEq, Repr

/-- The fault as it is reported. -/
def Fault.message : Fault → String
  | settings fault => "invalid hardware configuration: " ++ fault.message
  | unknownProfile group profile =>
    "channel group '" ++ group ++ "' has no profile named '" ++ profile ++ "'"
  | unknownGroup group => "no channel group named '" ++ group ++ "' is registered"
  | duplicateGroup group => "channel group '" ++ group ++ "' is already registered"
  | profileWidth group profile bits channels =>
    "profile '" ++ profile ++ "' of group '" ++ group ++ "' has " ++ Numeral.text bits
      ++ " bits, but the group drives " ++ Numeral.text channels ++ " channels"
  | channelOutOfRange channel channels =>
    "channel " ++ Numeral.text channel ++ " is out of range for a card with "
      ++ Numeral.text channels ++ " channels"
  | unplaceableTime time =>
    "transition time " ++ Binary64.text time ++ " cannot be quantized to a sample index"
  | overlappingRegions start stop next =>
    "repeat region starting at " ++ Binary64.text next ++ " overlaps the region "
      ++ Binary64.text start ++ ".." ++ Binary64.text stop
  | playback fault => fault.message
  | halted reason => reason.message

end PulseTrain
