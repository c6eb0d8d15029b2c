/-!
# Levels

The level of every channel of a card at one instant, channel `0` first.
-/

namespace PulseTrain

/-- The level of every channel at one instant. -/
structure Levels where
  bits : List Bool
deriving DecidableEq, Repr

namespace Levels

/-- Every one of `channels` channels is low. -/
def low (channels : Nat) : Levels where
  bits := List.replicate channels false

/-- The number of channels. -/
def width (s : Levels) : Nat :=
  s.bits.length

/-- The level of `channel`, if there is such a channel. -/
def get? (s : Levels) (channel : Nat) : Option Bool :=
  s.bits[channel]?

/-- The levels after `channel` has gone to `level`. -/
def set (s : Levels) (channel : Nat) (level : Bool) : Levels where
  bits := s.bits.set channel level

@[simp] theorem width_low (channels : Nat) : (low channels).width = channels := by
  simp [low, width]

@[simp] theorem width_set (s : Levels) (channel : Nat) (level : Bool) :
    (s.set channel level).width = s.width := by
  simp [set, width]

/-- A channel has the level it was last set to, and setting it leaves the others alone. -/
theorem get?_set (s : Levels) (channel channel' : Nat) (level : Bool) :
    (s.set channel level).get? channel'
      = if channel = channel' then (if channel < s.width then some level else none)
        else s.get? channel' :=
  List.getElem?_set

/-- Dictionary order from channel `0` on: low comes before high, and a state before those that
continue it. -/
def le (a b : Levels) : Bool :=
  !List.lex b.bits a.bits fun x y => !x && y

end Levels

end PulseTrain
