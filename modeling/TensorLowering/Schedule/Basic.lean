import TensorLowering.Graph.Basic

/-!
# Schedules

A `Schedule` is the sequence in which operators run: step `i` runs the operator at position `i`.
The builder and the checker are in modules of their own; this one holds the type and the steps of
operators.
-/

namespace TensorLowering

/-- Operators in the order in which they run. -/
structure Schedule where
  ordered : List OperatorId
  deriving DecidableEq, Repr

namespace Schedule

/-- The number of steps. -/
def steps (s : Schedule) : Nat := s.ordered.length

/-- The last step; zero when there is none. -/
def lastStep (s : Schedule) : Nat := s.steps - 1

/-- The step of an operator, if it is scheduled. -/
def stepOf? (s : Schedule) (op : OperatorId) : Option Nat := s.ordered.idxOf? op

/-- A word that equal schedules share. -/
def fingerprint (s : Schedule) : UInt64 := hash s.ordered

end Schedule

/-- The producers of the operands of an operator, with the slots they feed, in slot order. -/
def Graph.producers (g : Graph) (op : Operator) : Lowering (List (String × OperatorId)) := do
  let fed ← op.inputs.mapM fun (slot, input) => do
    let x ← g.tensor input
    pure (x.producer.map (slot, ·))
  pure (fed.filterMap id)

end TensorLowering
