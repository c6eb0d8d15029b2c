import PulseTrain.Levels.Basic
import PulseTrain.Text.Blank

/-!
# Levels as text

A state is written as one digit per channel, channel `0` first, with a space between two digits:
`1 0 1`. It is read back from any text whose pieces between blanks are such digits.
-/

namespace PulseTrain.Levels

/-- The digit of a level. -/
def bitChar (level : Bool) : Char :=
  if level then '1' else '0'

/-- The level of a digit that stands alone. -/
def readBit : List Char → Option Bool
  | ['0'] => some false
  | ['1'] => some true
  | _ => none

/-- The text of a state, as characters. -/
def chars (s : Levels) : List Char :=
  (s.bits.map bitChar).intersperse ' '

/-- The text of a state. -/
def text (s : Levels) : String :=
  String.ofList s.chars

/-- The state that a text stands for. -/
def parse? (text : String) : Option Levels :=
  ((Text.pieces text.toList).mapM readBit).map Levels.mk

example : (Levels.mk [true, false, true]).text = "1 0 1" := by decide +kernel
example : parse? " 1\t0  " = some ⟨[true, false]⟩ ∧ parse? "10" = none := by decide +kernel

end PulseTrain.Levels
