import PulseTrain.Binary64.Order
import PulseTrain.Fault
import PulseTrain.Ledger.Basic

/-!
# Overlapping regions

Two regions of a ledger must not overlap; one may start where another ends. Regions are put on record
in any order, so they are sorted by their start first. It is then enough to look at neighbours.
-/

namespace PulseTrain.Region

/-- The order of regions by their start. -/
def le (a b : Region) : Bool :=
  Binary64.totalLE a.start b.start

/-- The first two neighbours of which the second starts before the first ends. -/
def firstOverlap? : List Region → Option (Region × Region)
  | a :: b :: rest => if b.start < a.stop then some (a, b) else firstOverlap? (b :: rest)
  | _ => none

/-- Refuses regions that overlap. -/
def check (regions : List Region) : Except Fault Unit :=
  match firstOverlap? (regions.mergeSort le) with
  | some (a, b) => .error (.overlappingRegions a.start a.stop b.start)
  | none => .ok ()

end PulseTrain.Region
