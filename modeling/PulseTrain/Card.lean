import PulseTrain.Binary64.Positional
import PulseTrain.Binary64.Rounding
import PulseTrain.Counter

/-!
# The output card

What the compiler knows of the card it compiles for.

* `Settings` are the figures as somebody asks for them.
* `Card` is settings that fit together. The conditions are fields, so whoever holds a card holds
  them; `Card.ofSettings` is the one way in, and reports the first condition that fails.
* `Card.samples` and `sampleIndex?` take a time to the sample grid; `cycleCount` takes a duration in
  samples to whole cycles.
-/

namespace PulseTrain

/-- The longest single wait that the card accepts, in cycles of the sample clock. -/
def longestWait : Nat := Nat.pow 2 29

/-- The sample clock and the timing limits asked of a card.

`clockRate` is in samples per second, and `units` is what one unit of the caller's time is in
seconds. `quantum` is the smallest block of samples the card can address: every wait and every
waveform is a multiple of it. Between two waveforms the card needs a wait of at least `stableWait`
cycles, and one `wait` instruction covers at most `maxWait`. -/
structure Settings where
  clockRate : Float := 1000
  units : Float := 1
  channels : Nat := 32
  quantum : Nat := 1
  stableWait : Nat := 0
  maxWait : Nat := longestWait
deriving DecidableEq, Repr

/-- Why settings do not describe a card. -/
inductive SettingsFault where
  | clockRate (found : Float)
  | units (found : Float)
  | noChannels
  | noQuantum
  | unalignedMaxWait (maxWait quantum : Nat)
  | stableWaitTooLong (stableWait maxWait : Nat)
deriving DecidableEq, Repr

/-- The reason as it is reported. -/
def SettingsFault.message : SettingsFault → String
  | clockRate found => "clock_rate must be positive, got " ++ Binary64.text found
  | units found => "units must be positive, got " ++ Binary64.text found
  | noChannels => "num_channels must be at least 1"
  | noQuantum => "alignment_quantum must be at least 1"
  | unalignedMaxWait maxWait quantum =>
    "max_wait_cycles " ++ Numeral.text maxWait
      ++ " must be a non-zero multiple of alignment_quantum " ++ Numeral.text quantum
  | stableWaitTooLong stableWait maxWait =>
    "min_stable_wait_cycles " ++ Numeral.text stableWait
      ++ " exceeds max_wait_cycles " ++ Numeral.text maxWait

/-- `x` can be a rate: it is finite and positive. -/
def IsRate (x : Float) : Prop :=
  x.isFinite = true ∧ 0 < x

instance (x : Float) : Decidable (IsRate x) :=
  inferInstanceAs (Decidable (_ ∧ _))

/-- Settings that fit together, and how the program that drives the card was built to count. -/
structure Card extends Settings where
  arithmetic : Counter.Arithmetic := .wrapping
  clockRate_isRate : IsRate clockRate
  units_isRate : IsRate units
  channels_pos : 0 < channels
  quantum_pos : 0 < quantum
  quantum_le_maxWait : quantum ≤ maxWait
  quantum_dvd_maxWait : maxWait % quantum = 0
  stableWait_le_maxWait : stableWait ≤ maxWait
deriving DecidableEq

/-- The number of samples that `time` takes, before rounding. The factors are applied from left to
right, which decides where a half sample falls. -/
def sampleCount (clockRate units time : Float) : Float :=
  time * clockRate * units

/-- The sample at which `time` falls: the nearest one, and the even one of two equally near. A time
that is negative or not finite falls on none, and neither does one past the last sample that a
counter can hold. -/
def sampleIndex? (clockRate units time : Float) : Option Nat :=
  if ¬ time.isFinite ∨ time < 0 then none
  else
    match Binary64.nearestWhole? (sampleCount clockRate units time) with
    | some n => if n < Counter.bound then some n.toNat else none
    | none => none

/-- A number of samples as a count of cycles: the nearest one. What is not a number counts as none,
and a number that no counter holds as the nearest that one does. -/
def cycleCount (samples : Float) : Nat :=
  match Binary64.ofFloat samples with
  | .nan | .infinite true => 0
  | .infinite false => Counter.bound - 1
  | x => Counter.clamp (x.nearest?.getD 0)

namespace Card

/-- The card that `s` describes, or the first condition that `s` fails. -/
def ofSettings (s : Settings) (arithmetic : Counter.Arithmetic := .wrapping) :
    Except SettingsFault Card :=
  if hclock : ¬ IsRate s.clockRate then .error (.clockRate s.clockRate)
  else if hunits : ¬ IsRate s.units then .error (.units s.units)
  else if hchannels : s.channels = 0 then .error .noChannels
  else if hquantum : s.quantum = 0 then .error .noQuantum
  else if hwait : s.maxWait < s.quantum ∨ s.maxWait % s.quantum ≠ 0 then
    .error (.unalignedMaxWait s.maxWait s.quantum)
  else if hstable : s.maxWait < s.stableWait then
    .error (.stableWaitTooLong s.stableWait s.maxWait)
  else
    .ok {
      toSettings := s
      arithmetic
      clockRate_isRate := Decidable.not_not.mp hclock
      units_isRate := Decidable.not_not.mp hunits
      channels_pos := by omega
      quantum_pos := by omega
      quantum_le_maxWait := by omega
      quantum_dvd_maxWait := by omega
      stableWait_le_maxWait := by omega }

/-- The number of samples that `time` takes on this card, before rounding. -/
def samples (card : Card) (time : Float) : Float :=
  sampleCount card.clockRate card.units time

theorem maxWait_pos (card : Card) : 0 < card.maxWait :=
  Nat.lt_of_lt_of_le card.quantum_pos card.quantum_le_maxWait

/-- A card is its settings and the arithmetic of the program. -/
theorem ofSettings_toSettings (card : Card) :
    ofSettings card.toSettings card.arithmetic = .ok card := by
  have h₁ := card.clockRate_isRate
  have h₂ := card.units_isRate
  have h₃ := card.channels_pos
  have h₄ := card.quantum_pos
  have h₅ := card.quantum_le_maxWait
  have h₆ := card.quantum_dvd_maxWait
  have h₇ := card.stableWait_le_maxWait
  rw [ofSettings, dif_neg (not_not_intro h₁), dif_neg (not_not_intro h₂), dif_neg (by omega),
    dif_neg (by omega), dif_neg (by omega), dif_neg (by omega)]

end Card

end PulseTrain
