import TensorLowering.Graph.Basic
import TensorLowering.Operator.Rule

/-!
# Applying operators and binding symbols

Applying an operator checks its rule, settles what can be decided, and attaches one new tensor
(`Graph.apply`). Binding a symbol settles the open obligations of every operator under the larger
table, and the binding stands only if none of them is violated (`Graph.bind`).
-/

namespace TensorLowering

namespace Graph

/-! ## Applying an operator -/

/-- The graph with an operator applied: its result is a new intermediate tensor, and each operand
lists the operator as a consumer. -/
def attach (g : Graph) (op : Operator) (data parameter : TensorId) (shape : Shape)
    (pending : List Obligation) : Graph :=
  let result := g.tensors.length
  let name := op.name ++ "_" ++ op.kind.resultSlot
  let tensors := g.tensors ++ [⟨result, name, .intermediate, shape, some op.id, []⟩]
  { g with
    tensors := (tensors.modify data (·.addConsumer op.id)).modify parameter (·.addConsumer op.id)
    operators := g.operators.modify op.id
      ({ · with application := some ⟨data, parameter, result, pending⟩ }) }

/-- Applies an operator to its operands, once, and answers with the handle of its result. -/
def apply (g : Graph) (id : OperatorId) (inputs : List TensorId) : Lowering (Graph × TensorId) := do
  let op ← g.operator id
  if op.isApplied then
    throw (.operatorReapplied op.label)
  match inputs with
  | [data, parameter] =>
    let x ← g.tensor data
    let s ← g.tensor parameter
    let operands : Operands := ⟨op.label, some x, some s⟩
    let obligations ← op.kind.obligations operands
    let pending ← Obligation.settle op.label g.symbols obligations
    let shape ← op.kind.resultShape g.symbols operands
    pure (g.attach op data parameter shape pending, g.tensors.length)
  | _ =>
    throw (.unsupported (.operator op.label) (.wrongArity op.kind.inputSlots inputs.length))

/-! ## Binding symbols -/

/-- The operator with the obligations that stay open under a table. -/
def settleOperator (t : SymbolTable) (op : Operator) : Lowering Operator := do
  let pending ← Obligation.settle op.label t op.pending
  pure (op.withPending pending)

/-- The graph under a table, with every open obligation looked at again. -/
def settle (g : Graph) (t : SymbolTable) : Lowering Graph := do
  let operators ← g.operators.mapM (settleOperator t)
  pure { g with operators, symbols := t }

/-- Looks at every open obligation again; those that are met disappear. -/
def revalidate (g : Graph) : Lowering Graph := g.settle g.symbols

/-- Binds a symbol and settles what the binding decides. -/
def bind (g : Graph) (k : SymbolId) (value : Int64) : Lowering Graph := do
  match ← g.symbols.bind k value with
  | none => pure g
  | some t => g.settle t

end Graph

end TensorLowering
