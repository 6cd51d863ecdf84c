import TensorLowering.Schedule.Basic

/-!
# Checking a schedule

A schedule is accepted when every operator stands after the producers of its operands, none stands
twice, and all applied operators are there.
-/

namespace TensorLowering

/-- The first operand slot whose producer is not among those that have run. -/
def lateSlot? (ran : List OperatorId) (producers : List (String × OperatorId)) :
    Option (String × OperatorId) :=
  producers.find? fun (_, producer) => !ran.contains producer

namespace Graph

/-- Checks the steps of a schedule one after the other, given the operators that ran before them;
answers with all that ran, latest first. -/
def checkSteps (g : Graph) (ran : List OperatorId) : List OperatorId → Lowering (List OperatorId)
  | [] => pure ran
  | id :: rest => do
    let op ← g.operator id
    let producers ← g.producers op
    if let some (slot, producer) := lateSlot? ran producers then
      throw (.invalidGraph (.lateProducer op.label producer slot))
    if ran.contains id then
      throw (.invalidGraph (.scheduledTwice op.label))
    g.checkSteps (id :: ran) rest

/-- Checks that a schedule runs every applied operator once, after its operands are there. -/
def checkSchedule (g : Graph) (s : Schedule) : Lowering Unit := do
  let ran ← g.checkSteps [] s.ordered
  let applied := g.applied.length
  if ran.length ≠ applied then
    throw (.invalidGraph (.incompleteSchedule ran.length applied))

end Graph

end TensorLowering
