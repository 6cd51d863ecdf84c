import TensorLowering.Layout.Basic
import TensorLowering.Liveness
import TensorLowering.Schedule.Build

/-!
# Checking a layout

Two regions of known place in one space may share bytes only if both hold intermediate tensors
that are never live together. The check plans liveness anew for the graph as it is.
-/

namespace TensorLowering

/-- A region of known place. -/
structure PlacedRegion where
  allocation : Allocation
  start : Int
  stop : Int
  deriving DecidableEq, Repr

namespace PlacedRegion

/-- The regions of known place among some regions. -/
def ofAllocations (regions : List Allocation) : List PlacedRegion :=
  regions.filterMap fun a => a.byteRange?.map fun (start, stop) => ⟨a, start, stop⟩

/-- Whether two regions share a byte. -/
def meets (a b : PlacedRegion) : Bool :=
  a.allocation.space == b.allocation.space && a.start < b.stop && b.start < a.stop

/-- Whether two tensors may have bytes in common under a plan: both are intermediate and never
live together. -/
def mayShare (plan : LivenessPlan) (a b : TensorId) : Bool :=
  match plan.range? a, plan.range? b with
  | some ra, some rb =>
    ra.role == .intermediate && rb.role == .intermediate && !ra.overlaps rb
  | _, _ => false

/-- Demands that two regions have no bytes in common, or may have them. -/
def checkPair (plan : LivenessPlan) (a b : PlacedRegion) : Lowering Unit :=
  if a.meets b && !mayShare plan a.allocation.tensor b.allocation.tensor then
    throw (.invalidGraph (.sharedBytes a.allocation.space a.allocation.name (a.start, a.stop)
      b.allocation.name (b.start, b.stop)))
  else pure ()

/-- Checks every pair of a list, an earlier region against all later ones. -/
def checkPairs (plan : LivenessPlan) : List PlacedRegion → Lowering Unit
  | [] => pure ()
  | a :: rest => do
    rest.forM (a.checkPair plan)
    checkPairs plan rest

end PlacedRegion

/-- Checks a layout against a graph: every tensor has a region, and no bytes are shared that may
not be. -/
def Graph.checkLayout (g : Graph) (l : Layout) : Lowering Unit := do
  let s ← g.schedule
  let plan := s.liveness g
  g.tensors.forM fun x => discard (l.get x.id)
  PlacedRegion.checkPairs plan (PlacedRegion.ofAllocations l.allocations)

end TensorLowering
