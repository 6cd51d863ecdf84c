import TensorLowering.Schedule.Build
import TensorLowering.Schedule.Check

/-!
# Checking a graph

The structural conditions a graph has to meet before it is lowered: handles equal positions,
sources have no producer and all other tensors have one, edges are mutual, every operator has been
applied, and there is a valid schedule. Shapes are not looked at again; rules settle them when
operators are applied.
-/

namespace TensorLowering

namespace Graph

/-- The producer edge of a tensor: absent for inputs and weights, present and mutual for all
others. -/
def checkProducer (g : Graph) (x : Tensor) : Lowering Unit :=
  match x.role, x.producer with
  | .input, some producer | .weight, some producer =>
    throw (.invalidGraph (.producedSupply x.role x.name producer))
  | .intermediate, none | .output, none => throw (.invalidGraph (.noProducer x.name))
  | .input, none | .weight, none => pure ()
  | .intermediate, some producer | .output, some producer => do
    let op ← g.operator producer
    if !op.outputs.any (·.2 == x.id) then
      throw (.invalidGraph (.notAmongOutputs x.name op.label))

/-- The consumer edges of a tensor: distinct and mutual. -/
def checkConsumers (g : Graph) (x : Tensor) (seen : List OperatorId) :
    List OperatorId → Lowering Unit
  | [] => pure ()
  | consumer :: rest => do
    if seen.contains consumer then
      throw (.invalidGraph (.repeatedConsumer x.name consumer))
    let op ← g.operator consumer
    if !op.inputs.any (·.2 == x.id) then
      throw (.invalidGraph (.notAmongInputs x.name op.label))
    g.checkConsumers x (consumer :: seen) rest

/-- The conditions on the tensor at a position. -/
def checkTensor (g : Graph) (x : Tensor) (index : Nat) : Lowering Unit := do
  if x.id ≠ index then
    throw (.invalidGraph (.idMismatch index x.id))
  g.checkProducer x
  g.checkConsumers x [] x.consumers

/-- The conditions on an operator: applied, and known to its operands. -/
def checkOperator (g : Graph) (op : Operator) : Lowering Unit := do
  if !op.isApplied then
    throw (.invalidGraph (.neverApplied op.label))
  op.inputs.forM fun (slot, input) => do
    let x ← g.tensor input
    if !x.consumers.contains op.id then
      throw (.invalidGraph (.missingConsumer op.label slot))

/-- Checks the whole graph. -/
def check (g : Graph) : Lowering Unit := do
  g.tensors.zipIdx.forM fun (x, index) => g.checkTensor x index
  g.operators.forM g.checkOperator
  let s ← g.schedule
  g.checkSchedule s

end Graph

end TensorLowering
