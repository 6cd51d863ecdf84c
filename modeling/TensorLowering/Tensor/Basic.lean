import TensorLowering.Shape.Basic

/-!
# Tensors

A `Tensor` is a node of the graph: a named shape with a role, the operator that produces it and the
operators that read it. Edges are operator indices; the graph owns both ends.
-/

namespace TensorLowering

/-- The index of a tensor in its graph. -/
abbrev TensorId := Nat

/-- The index of an operator in its graph. -/
abbrev OperatorId := Nat

/-- A tensor of the graph, with its edges. -/
structure Tensor where
  id : TensorId
  name : String
  role : Role
  shape : Shape
  producer : Option OperatorId
  /-- The operators that read the tensor, each once, in the order in which they were applied. -/
  consumers : List OperatorId
  deriving DecidableEq, Repr

namespace Tensor

/-- The subject of reports on the tensor. -/
def subject (x : Tensor) : Subject := .tensor x.name

/-- The tensor in another order of the same axes. -/
def relabel (x : Tensor) (target : Order) : Lowering Tensor := do
  let shape ← x.shape.relabel x.subject target
  pure { x with shape }

/-- The tensor read by one more operator; an operator is listed once. -/
def addConsumer (x : Tensor) (op : OperatorId) : Tensor :=
  if x.consumers.contains op then x else { x with consumers := x.consumers ++ [op] }

end Tensor

end TensorLowering
