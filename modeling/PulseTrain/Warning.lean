import PulseTrain.Binary64.Positional

/-!
# Warnings

What is carried out, but perhaps not as it was meant. A warning never changes what is recorded.
-/

namespace PulseTrain

/-- A remark on a request that was carried out. -/
inductive Warning where
  /-- A repeat was asked for with no repetitions. -/
  | emptyRepeat (start : Float)
  /-- The period of a repeat is `samples` samples, which is no whole number. -/
  | fractionalPeriod (start period samples : Float)
  /-- The period of a repeat is shorter than the shortest wait between two waveforms. -/
  | shortPeriod (start : Float) (cycles stableWait : Nat)
  /-- A switch's offset moved a change before time zero. -/
  | earlySwitch (name : String) (channel : Nat) (requested moved : Float)
deriving DecidableEq, Repr

/-- The warning as it is reported. -/
def Warning.message : Warning → String
  | emptyRepeat start =>
    "Repeat at t0=" ++ Binary64.text start ++ " requested with 0 repeats; nothing is recorded"
  | fractionalPeriod start period samples =>
    "Repeat period dt=" ++ Binary64.text period ++ " at t0=" ++ Binary64.text start ++ " is "
      ++ Binary64.text samples ++ " samples, which is not an integer; it will be rounded"
  | shortPeriod start cycles stableWait =>
    "Repeat period at t0=" ++ Binary64.text start ++ " is " ++ Numeral.text cycles
      ++ " samples, below the stability threshold of " ++ Numeral.text stableWait ++ " samples"
  | earlySwitch name channel requested moved =>
    "Switch '" ++ name ++ "' (channel " ++ Numeral.text channel ++ ") change at t="
      ++ Binary64.text requested ++ " moved to negative time " ++ Binary64.text moved
      ++ ", clamping to 0"

end PulseTrain
