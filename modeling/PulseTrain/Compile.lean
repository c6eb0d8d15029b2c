import PulseTrain.Assembly
import PulseTrain.Ledger.Overlap

/-!
# Compiling a ledger

The regions are checked, the transitions become frames, the frames are rounded up to waits, and an
artifact is assembled. The ledger is only read, and nothing is produced if any of it is refused.
-/

namespace PulseTrain

/-- The artifact that plays what is recorded on `ledger`. -/
def Artifact.ofLedger (card : Card) (ledger : Ledger) : Except Fault Artifact := do
  Region.check ledger.regions
  let frames ← Frame.ofTransitions card ledger.transitions
  let holds ← (frames.mapM (Frame.held card.arithmetic card.quantum)).mapError .halted
  pure (ofHolds card holds)

end PulseTrain
