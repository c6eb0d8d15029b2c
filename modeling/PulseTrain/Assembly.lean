import PulseTrain.Artifact
import PulseTrain.Waveform.Catalog

/-!
# Assembly

Holds become a script. Between two waveforms the card needs a wait of at least `stableWait` cycles, so
a hold shorter than that is fused with the holds after it, up to and including the first that is long
enough. The last hold of all needs no wait after it.

* `Burst.fuse` cuts holds into bursts, which are played by one waveform each.
* `Assembly.emit` writes a burst: it plays the waveform and waits out the last hold.
-/

namespace PulseTrain

/-- Holds played by one waveform: those too short to be waited for, and the one that is. -/
structure Burst where
  lead : List Hold
  final : Hold
deriving DecidableEq, Repr

namespace Burst

/-- The holds of a burst, in order. -/
def holds (b : Burst) : List Hold :=
  b.lead ++ [b.final]

/-- Cuts holds into bursts, when the holds `lead` are already waiting for the last of theirs. -/
def fuse (stableWait : Nat) (lead : List Hold) : List Hold → List Burst
  | [] => []
  | [h] => [⟨lead, h⟩]
  | h :: next :: rest =>
    if h.cycles < stableWait then fuse stableWait (lead ++ [h]) (next :: rest)
    else ⟨lead, h⟩ :: fuse stableWait [] (next :: rest)

/-- Cutting into bursts keeps every hold, in order. -/
theorem flatMap_holds_fuse (stableWait : Nat) (lead hs : List Hold) (h : hs ≠ []) :
    (fuse stableWait lead hs).flatMap holds = lead ++ hs := by
  induction hs generalizing lead with
  | nil => exact absurd rfl h
  | cons h rest ih =>
    cases rest with
    | nil => simp [fuse, holds]
    | cons next rest =>
      rw [fuse]
      split
      -- A short hold joins the lead; a long one closes the burst, and the next lead starts empty.
      · rw [ih _ (by simp)]
        simp
      · rw [List.flatMap_cons, ih _ (by simp)]
        simp [holds]

end Burst

/-- Names the waveform of a burst. A hold by itself has a plain waveform. -/
def Catalog.add (quantum : Nat) (b : Burst) (c : Catalog) : String × Catalog :=
  if b.lead = [] then c.addPlain quantum b.final.state else c.addFused quantum b.holds

namespace Assembly

/-- The instructions that play a burst under the name of its waveform. -/
def emit (maxWait : Nat) (name : String) (b : Burst) : List Instruction :=
  .generate name :: (Wait.split maxWait b.final.cycles).map .wait

/-- The instructions that play bursts, and the catalog after naming their waveforms. -/
def run (card : Card) (c : Catalog) : List Burst → List Instruction × Catalog
  | [] => ([], c)
  | b :: bs =>
    let (name, named) := c.add card.quantum b
    let (rest, last) := run card named bs
    (emit card.maxWait name b ++ rest, last)

end Assembly

/-- The artifact that plays `holds`. -/
def Artifact.ofHolds (card : Card) (holds : List Hold) : Artifact :=
  let (instructions, catalog) := Assembly.run card {} (Burst.fuse card.stableWait [] holds)
  { script := ⟨instructions⟩, waveforms := catalog.waveforms }

/-- The artifact that plays `frames`, each for as long as the card can hold it. -/
def Artifact.ofFrames (card : Card) (frames : List Frame) : Artifact :=
  ofHolds card (frames.map (Frame.hold card.quantum))

end PulseTrain
