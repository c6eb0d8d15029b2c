import PulseTrain.Script.Basic
import PulseTrain.Waveform.Basic

/-!
# Artifacts

What a compile produces: a script, and the waveforms that it plays. `Artifact.xml` is the text that is
sent to the card.
-/

namespace PulseTrain

/-- A script and the waveforms that it plays. -/
structure Artifact where
  script : Script := {}
  waveforms : Waveforms := ∅
deriving DecidableEq

/-- The script and the waveforms as the card takes them. -/
def Artifact.xml (a : Artifact) : String :=
  "<script>" ++ a.script.text ++ "</script>\n<waveforms>" ++ a.waveforms.xml ++ "</waveforms>\n"

end PulseTrain
