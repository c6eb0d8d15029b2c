import PulseTrain.Counter
import PulseTrain.Script.Basic
import PulseTrain.Text.Blank
import PulseTrain.Text.Lines
import PulseTrain.Text.Word

/-!
# Reading scripts

Lines are read without the blanks at their ends, and lines with nothing else on them are passed over;
they keep their number, which counts from one. The first line names the script by one word. Every line
after it, up to the line that ends the script, is an instruction: its name and one argument. What comes
after the end is not looked at.
-/

namespace PulseTrain

/-- Why a text is not a script. -/
inductive ScriptFault where
  | missingStart
  | missingEnd
  | unreadable (line : Nat) (text : String)
deriving DecidableEq, Repr

/-- The fault as it is reported. -/
def ScriptFault.message : ScriptFault → String
  | missingStart => "script does not start with a 'script <name>' line"
  | missingEnd => "script is not terminated by 'end script'"
  | unreadable line text =>
    "line " ++ Numeral.text line ++ ": cannot parse instruction '" ++ text ++ "'"

/-- A line that is not blank: its number in the text, and what stands between the blanks at its
ends. -/
structure ScriptLine where
  number : Nat
  text : List Char
deriving DecidableEq, Repr

/-- The lines of a text that are not blank. -/
def ScriptLine.ofText (text : String) : List ScriptLine :=
  (((Text.lines text.toList).zipIdx 1).map fun (line, number) => ⟨number, Text.trim line⟩).filter
    (!·.text.isEmpty)

/-- A line that starts a script: the word `script` and a name of word characters. -/
def ScriptLine.isStart (l : ScriptLine) : Bool :=
  match Text.pieces l.text with
  | [keyword, name] => keyword = "script".toList && name.all Text.isWordChar
  | _ => false

/-- The line that ends a script, which is written in one way only. -/
def ScriptLine.isEnd (l : ScriptLine) : Bool :=
  l.text = "end script".toList

/-- The instruction on a line: its name and one argument. The argument of a `wait` is a count. -/
def Instruction.read? (l : ScriptLine) : Option Instruction :=
  match Text.pieces l.text with
  | [keyword, argument] =>
    if keyword = "generate".toList then some (generate (String.ofList argument))
    else if keyword = "wait".toList then (Counter.read? argument).map wait
    else none
  | _ => none

namespace Script

/-- Reads instructions up to the line that ends the script. -/
def readBody : List ScriptLine → Except ScriptFault (List Instruction)
  | [] => .error .missingEnd
  | l :: ls =>
    if l.isEnd then .ok []
    else
      match Instruction.read? l with
      | some i => (readBody ls).map (i :: ·)
      | none => .error (.unreadable l.number (String.ofList l.text))

/-- Reads a script. -/
def parse (text : String) : Except ScriptFault Script :=
  match ScriptLine.ofText text with
  | [] => .error .missingStart
  | l :: ls => if l.isStart then (readBody ls).map Script.mk else .error .missingStart

end Script

end PulseTrain
