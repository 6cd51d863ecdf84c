import TensorLowering.Graph.Basic

/-!
# Graph listings

One line per tensor, then one line per operator. Extents are written with symbol labels, and
tensors are referred to by a percent sign and their handle.
-/

namespace TensorLowering

/-- A reference to a tensor in a listing. -/
def tensorReference (id : TensorId) : String := "%" ++ toString id

namespace Graph

/-- The declaration line of a tensor. -/
def tensorLine (g : Graph) (x : Tensor) : String :=
  tensorReference x.id ++ " " ++ x.name ++ ": f32["
    ++ ", ".intercalate (x.shape.extents.map g.symbols.render) ++ "] " ++ x.shape.order.text
    ++ " (" ++ x.role.remark ++ ")"

end Graph

namespace Operator

/-- The line of an operator: what it defines from which operands, with its parameters. -/
def line (op : Operator) : String :=
  let parameters := " [" ++ op.kind.describe ++ "]"
  if op.isApplied then
    ", ".intercalate (op.outputs.map fun (_, id) => tensorReference id) ++ " = " ++ op.label ++ " "
      ++ " ".intercalate (op.inputs.map fun (slot, id) => slot ++ "=" ++ tensorReference id)
      ++ parameters
  else "<unapplied> " ++ op.label ++ parameters

end Operator

/-- The listing of a graph. -/
def Graph.listing (g : Graph) : String :=
  "\n".intercalate (g.tensors.map g.tensorLine ++ g.operators.map Operator.line)

end TensorLowering
