import PulseTrain.Hold
import PulseTrain.Levels.Hex
import PulseTrain.Waveform.Basic

/-!
# The catalog of a compile

Waveforms get their names while a sequence is compiled.

* A *plain* waveform holds one state for one quantum. It is named by the state, defined when the state
  first comes up and shared from then on.
* A *fused* waveform plays several holds. It is never shared, and named by its number.
-/

namespace PulseTrain

/-- The waveforms named so far. `plain` says which states have a waveform of their own, and `fused`
counts the fused ones. -/
structure Catalog where
  plain : Directory Levels String := ∅
  waveforms : Waveforms := ∅
  fused : Nat := 0
deriving DecidableEq

namespace Catalog

/-- The name of the fused waveform number `n`. -/
def fusedName (n : Nat) : String :=
  "c" ++ Numeral.text n

/-- The name of the plain waveform of `state`, which is defined if need be. -/
def addPlain (quantum : Nat) (state : Levels) (c : Catalog) : String × Catalog :=
  match c.plain.find? state with
  | some name => (name, c)
  | none =>
    let name := state.waveformName
    (name, { c with
      plain := c.plain.insert state name
      waveforms := c.waveforms.insert name (List.replicate quantum state) })

/-- The name of a fresh waveform that plays `holds`. -/
def addFused (quantum : Nat) (holds : List Hold) (c : Catalog) : String × Catalog :=
  let name := fusedName c.fused
  (name, { c with
    waveforms := c.waveforms.insert name (Hold.unroll quantum holds)
    fused := c.fused + 1 })

end Catalog

end PulseTrain
