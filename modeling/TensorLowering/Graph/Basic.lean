import TensorLowering.Operator.Basic

/-!
# Graphs

A `Graph` owns its tensors, operators and symbols. Nodes are only ever added, so an index is a
handle that stays good. This module holds the look-ups and the steps that declare nodes; a step
either succeeds or leaves nothing behind, because the graph is a value.
-/

namespace TensorLowering

/-- A computation graph: nodes by index, and the symbols their extents mention. -/
structure Graph where
  tensors : List Tensor
  operators : List Operator
  symbols : SymbolTable
  deriving DecidableEq, Repr

namespace Graph

/-- The graph without nodes. -/
def empty : Graph := ⟨[], [], .empty⟩

/-! ## Looking up nodes -/

/-- The tensor with a handle. -/
def tensor (g : Graph) (id : TensorId) : Lowering Tensor :=
  match g.tensors[id]? with
  | some x => .ok x
  | none => .error (.unknownTensor id)

/-- The operator with a handle. -/
def operator (g : Graph) (id : OperatorId) : Lowering Operator :=
  match g.operators[id]? with
  | some op => .ok op
  | none => .error (.unknownOperator id)

/-- The tensors of a role, by handle. -/
def withRole (g : Graph) (role : Role) : List Tensor := g.tensors.filter (·.role == role)

/-- The operators that have been applied, by handle. -/
def applied (g : Graph) : List Operator := g.operators.filter Operator.isApplied

/-- The open obligations with their operators, by handle and then in the order of the rule. -/
def pending (g : Graph) : List (Operator × Obligation) :=
  g.operators.flatMap fun op => op.pending.map (op, ·)

/-! ## Declaring nodes -/

/-- A new unbound symbol. -/
def addSymbol (g : Graph) (label : String) : Graph × SymbolId :=
  ({ g with symbols := g.symbols.create label }, g.symbols.size)

/-- A new tensor, which no operator produces. -/
def addTensor (g : Graph) (role : Role) (name : String) (order : Order) (extents : List Extent) :
    Lowering (Graph × TensorId) := do
  let shape ← Shape.ofExtents (.tensor name) order extents
  let id := g.tensors.length
  pure ({ g with tensors := g.tensors ++ [⟨id, name, role, shape, none, []⟩] }, id)

/-- A new operator, not applied yet. Without a name of its own it is called after its kind. -/
def addOperator (g : Graph) (name : Option String) (kind : OperatorKind) : Graph × OperatorId :=
  let id := g.operators.length
  ({ g with operators := g.operators ++ [⟨id, name.getD (kind.defaultName id), kind, none⟩] }, id)

/-- The graph with one tensor replaced. -/
def setTensor (g : Graph) (id : TensorId) (x : Tensor) : Graph :=
  { g with tensors := g.tensors.set id x }

/-- Makes a tensor an output of the graph. Inputs and weights come from outside and cannot be
one. -/
def markOutput (g : Graph) (id : TensorId) : Lowering Graph := do
  let x ← g.tensor id
  match x.role with
  | .input | .weight => throw (.invalidGraph (.suppliedOutput x.name x.role))
  | .output | .intermediate => pure (g.setTensor id { x with role := .output })

/-- Relabels a tensor. Operators fix the order of their results from their operands, so a tensor
keeps its order once it is connected. -/
def changeOrder (g : Graph) (id : TensorId) (target : Order) : Lowering Graph := do
  let x ← g.tensor id
  if x.producer.isSome || !x.consumers.isEmpty then
    throw (.unsupported x.subject (.connectedRelabel x.shape.order target))
  let y ← x.relabel target
  pure (g.setTensor id y)

end Graph

end TensorLowering
