import PulseTrain.Directory
import PulseTrain.Levels.Text
import PulseTrain.Text.Numeral

/-!
# Waveforms

A waveform is a named run of samples that the card plays as one. A compiled sequence defines several;
`Waveforms` keeps them by name, in the order of definition.

`Waveform.xml` is the form in which one is sent to the card. Nothing in it is escaped.
-/

namespace PulseTrain

/-- A named run of samples. -/
structure Waveform where
  name : String
  samples : List Levels
deriving DecidableEq, Repr

/-- The samples of every waveform, by its name. -/
abbrev Waveforms := Directory String (List Levels)

namespace Waveform

/-- The element that defines `w`: its name, the offset of every sample, and the states. -/
def xml (w : Waveform) : String :=
  "<waveform><name>" ++ w.name ++ "</name><transitions>"
    ++ " ".intercalate ((List.range w.samples.length).map Numeral.text)
    ++ "</transitions><states>" ++ "\n".intercalate (w.samples.map Levels.text)
    ++ "</states>\n</waveform>\n"

end Waveform

namespace Waveforms

/-- The waveforms in the order of definition. -/
def toList (ws : Waveforms) : List Waveform :=
  ws.entries.map fun (name, samples) => ⟨name, samples⟩

/-- The elements of all waveforms. -/
def xml (ws : Waveforms) : String :=
  String.join (ws.toList.map Waveform.xml)

end Waveforms

end PulseTrain
