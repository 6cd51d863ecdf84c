import TensorLowering.Obligation
import TensorLowering.Operator.Kind
import TensorLowering.Tensor.Basic

/-!
# Operators

An `Operator` is a node that computes one tensor from two. Until it is applied it has no operands;
an `Application` then fixes operands and result for good and keeps the obligations that are still
open.
-/

namespace TensorLowering

/-- The tensors an operator was applied to, its result, and what remains to be checked. -/
structure Application where
  data : TensorId
  parameter : TensorId
  result : TensorId
  pending : List Obligation
  deriving DecidableEq, Repr

/-- An operator of the graph. -/
structure Operator where
  id : OperatorId
  name : String
  kind : OperatorKind
  application : Option Application
  deriving DecidableEq, Repr

namespace Operator

/-- The operator as reports name it: its kind and its name. -/
def label (op : Operator) : String := op.kind.name ++ " '" ++ op.name ++ "'"

/-- Whether the operator has been applied. -/
def isApplied (op : Operator) : Bool := op.application.isSome

/-- The operand tensors by slot; none before the operator is applied. -/
def inputs (op : Operator) : List (String × TensorId) :=
  match op.application with
  | none => []
  | some a => [(op.kind.dataSlot, a.data), (op.kind.parameterSlot, a.parameter)]

/-- The result tensors by slot; none before the operator is applied. -/
def outputs (op : Operator) : List (String × TensorId) :=
  match op.application with
  | none => []
  | some a => [(op.kind.resultSlot, a.result)]

/-- The obligations that are still open. -/
def pending (op : Operator) : List Obligation :=
  match op.application with
  | none => []
  | some a => a.pending

/-- The operator with other open obligations. -/
def withPending (op : Operator) (pending : List Obligation) : Operator :=
  { op with application := op.application.map ({ · with pending }) }

/-- Whether the operator has a structural property. -/
def hasAttribute (op : Operator) (property : Attribute) : Bool :=
  op.kind.attributes.contains property

/-- The tensor in a slot of the given list. -/
def slot (op : Operator) (direction : String) (slots : List (String × TensorId)) (name : String) :
    Lowering TensorId :=
  match slots.lookup name with
  | some id => .ok id
  | none => .error (.invalidGraph (.missingSlot op.label direction name))

/-- The operand in a slot. -/
def input (op : Operator) (name : String) : Lowering TensorId := op.slot "input" op.inputs name

/-- The result in a slot. -/
def output (op : Operator) (name : String) : Lowering TensorId := op.slot "output" op.outputs name

end Operator

end TensorLowering
