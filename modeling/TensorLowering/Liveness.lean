import TensorLowering.Schedule.Basic

/-!
# Liveness

When each tensor has to keep its bytes, in steps of a schedule. Inputs and weights are there from
step 0, every other tensor from the step that produces it; a tensor is kept up to its last reader,
and an output up to the last step (`Schedule.liveRange`). The plan also records how many tensors
are live at once at most.
-/

namespace TensorLowering

/-- The steps during which a tensor is live, both ends included. -/
structure LiveRange where
  tensor : TensorId
  role : Role
  first : Nat
  last : Nat
  deriving DecidableEq, Repr

namespace LiveRange

/-- Whether two ranges share a step. -/
def overlaps (a b : LiveRange) : Bool := a.first ≤ b.last && b.first ≤ a.last

/-- Whether the range contains a step. -/
def liveAt (a : LiveRange) (step : Nat) : Bool := a.first ≤ step && step ≤ a.last

theorem overlaps_comm (a b : LiveRange) : a.overlaps b = b.overlaps a := by
  simp [overlaps, Bool.and_comm]

end LiveRange

/-- The live ranges of all tensors, the length of the schedule, and the most tensors live at
once. -/
structure LivenessPlan where
  ranges : List LiveRange
  steps : Nat
  peak : Nat
  deriving DecidableEq, Repr

namespace LivenessPlan

/-- The range of a tensor, if the plan has one. -/
def range? (p : LivenessPlan) (id : TensorId) : Option LiveRange :=
  p.ranges.find? (·.tensor == id)

/-- A chart with one line per tensor and one mark per step. -/
def heatmap (p : LivenessPlan) : String :=
  "\n".intercalate (p.ranges.map fun r =>
    "v" ++ toString r.tensor ++ " "
      ++ String.ofList ((List.range p.steps).map fun step => if r.liveAt step then '#' else '.'))

end LivenessPlan

namespace Schedule

/-- The live range of a tensor. -/
def liveRange (s : Schedule) (x : Tensor) : LiveRange :=
  let first := (x.producer.bind s.stepOf?).getD 0
  let lastUse := (x.consumers.filterMap s.stepOf?).foldl max first
  let last := match x.role with
    | .output => max s.lastStep first
    | _ => lastUse
  ⟨x.id, x.role, first, last⟩

/-- The live ranges of the tensors of a graph. A graph without steps still has the moment before
them, so at least step 0 is looked at for the peak. -/
def liveness (s : Schedule) (g : Graph) : LivenessPlan :=
  let ranges := g.tensors.map s.liveRange
  let peak := ((List.range (max s.steps 1)).map fun step =>
    ranges.countP (·.liveAt step)).foldl max 0
  ⟨ranges, s.steps, peak⟩

end Schedule

end TensorLowering
