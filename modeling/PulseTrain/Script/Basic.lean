import PulseTrain.Text.Numeral

/-!
# Scripts

The card's sequencer knows two instructions: `generate` plays a waveform, and `wait` holds its last
state for a number of cycles. A script is a list of them; its text has one to a line, between a line
that names the script and a line that ends it.
-/

namespace PulseTrain

/-- An instruction of the card's sequencer. -/
inductive Instruction where
  | generate (waveform : String)
  | wait (cycles : Nat)
deriving DecidableEq, Repr

/-- A list of instructions. -/
structure Script where
  instructions : List Instruction := []
deriving DecidableEq, Repr

/-- The text of an instruction. -/
def Instruction.text : Instruction → String
  | generate waveform => "generate " ++ waveform
  | wait cycles => "wait " ++ Numeral.text cycles

/-- The text of a script. Every script is written under the name `main`. -/
def Script.text (s : Script) : String :=
  "script main\n" ++ String.join (s.instructions.map fun i => "  " ++ i.text ++ "\n")
    ++ "end script\n"

end PulseTrain
