import PulseTrain.Levels.Basic

/-!
# Levels as a hexadecimal numeral

Read with channel `i` as bit `i`, a state is a number. Its hexadecimal form packs four channels into a
digit, from channel `0` on, and writes the digits with the highest channels first and without leading
zeros. Waveforms that hold one state are named by it.
-/

namespace PulseTrain.Levels

/-- The number with these bits, the least significant one first. -/
def weigh : List Bool → Nat
  | [] => 0
  | bit :: bits => bit.toNat + 2 * weigh bits

/-- The number that a state stands for. -/
def value (s : Levels) : Nat :=
  weigh s.bits

/-- The digits of base sixteen, the least significant one first. The last digit may have fewer than
four channels. -/
def nibbles : List Bool → List Nat
  | b₀ :: b₁ :: b₂ :: b₃ :: bits => weigh [b₀, b₁, b₂, b₃] :: nibbles bits
  | [] => []
  | bits => [weigh bits]

/-- The hexadecimal form of a state. -/
def hex (s : Levels) : String :=
  match (nibbles s.bits).reverse.dropWhile (· = 0) with
  -- No digit is left when every channel is low, or when there is none.
  | [] => "0"
  | digits => String.ofList (digits.map Nat.digitChar)

example : (Levels.mk [true, false, false, false, true]).hex = "11" := by decide +kernel
example : (Levels.low 8).hex = "0" := by decide +kernel

/-- The name of the waveform that holds one state. -/
def waveformName (s : Levels) : String :=
  "w" ++ s.hex

end PulseTrain.Levels
