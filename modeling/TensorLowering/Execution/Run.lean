import TensorLowering.Execution.AxiswiseScale
import TensorLowering.Execution.Deconvolution
import TensorLowering.Schedule.Build

/-!
# Executing a graph

The host supplies inputs and weights, every operator of the schedule adds its result, and the
answer holds all arrays (`Graph.execute`).
-/

namespace TensorLowering

section
variable {α : Type}

/-- An operand of an operator with its array. -/
def operandData (g : Graph) (op : Operator) (slot : String) (values : Values α) :
    Execution (Tensor × Array α) := do
  let id ← Execution.ofLowering (op.input slot)
  let x ← Execution.ofLowering (g.tensor id)
  match values.lookup id with
  | some data => pure (x, data)
  | none => throw (.refused (.invalidGraph (.readTooEarly op.label x.name)))

/-- The result of an operator on the arrays computed so far. -/
def Graph.runOperator [Zero α] [Add α] [Mul α] (g : Graph) (op : Operator) (values : Values α) :
    Execution (Array α) := do
  let (x, data) ← operandData g op op.kind.dataSlot values
  let (s, parameter) ← operandData g op op.kind.parameterSlot values
  match op.kind with
  | .axiswiseScale axis =>
    let v ← Execution.ofLowering (x.view g.symbols)
    AxiswiseScale.elements v axis data parameter
  | .deconvolution p =>
    let result ← Execution.ofLowering (op.output op.kind.resultSlot)
    let y ← Execution.ofLowering (g.tensor result)
    let xv ← Execution.ofLowering (x.view g.symbols)
    let wv ← Execution.ofLowering (s.view g.symbols)
    let yv ← Execution.ofLowering (y.view g.symbols)
    p.elements xv wv yv data parameter

/-- The host data of a tensor, if its contents come from the host; its length must be that of the
tensor. -/
def Graph.hostArray (g : Graph) (host : HostData α) (x : Tensor) :
    Lowering (Option (Array α)) := do
  let supplied? : Option (List (String × Array α)) :=
    match x.role with
    | .input => some host.inputs
    | .weight => some host.weights
    | .output | .intermediate => none
  match supplied? with
  | none => pure none
  | some supplied =>
    match supplied.lookup x.name with
    | none => throw (.invalidGraph (.noHostData x.role x.name))
    | some data =>
      let v ← x.view g.symbols
      if data.size ≠ v.size then
        throw (.shapeMismatch x.subject (.hostLength data.size v.size))
      pure (some data)

/-- The arrays of all tensors whose contents come from the host. -/
def Graph.hostValues (g : Graph) (host : HostData α) : Lowering (Values α) := do
  let arrays ← g.tensors.mapM fun x => do
    let data ← g.hostArray host x
    pure (data.map (x.id, ·))
  pure (arrays.filterMap id)

/-- Runs a list of operators on the arrays computed so far. -/
def Graph.runOperators [Zero α] [Add α] [Mul α] (g : Graph) :
    Values α → List OperatorId → Execution (Values α)
  | values, [] => pure values
  | values, id :: rest => do
    let op ← Execution.ofLowering (g.operator id)
    let data ← g.runOperator op values
    let result ← Execution.ofLowering (op.output op.kind.resultSlot)
    g.runOperators ((result, data) :: values) rest

/-- Runs a graph on host data; answers with every array that was supplied or computed. -/
def Graph.execute [Zero α] [Add α] [Mul α] (g : Graph) (host : HostData α) :
    Execution (Values α) := do
  let values ← Execution.ofLowering (g.hostValues host)
  let s ← Execution.ofLowering g.schedule
  g.runOperators values s.ordered

end

end TensorLowering
