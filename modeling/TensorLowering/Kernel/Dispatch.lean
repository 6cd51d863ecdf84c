import TensorLowering.Kernel.AxiswiseScale
import TensorLowering.Kernel.Deconvolution

/-!
# The kernel of an operator

Every applied operator has one kernel, generated against a layout.
-/

namespace TensorLowering

/-- The kernel of an operator. -/
def Graph.kernel (g : Graph) (l : Layout) (op : Operator) : Lowering Kernel := do
  let x ← g.tensor (← op.input op.kind.dataSlot)
  let s ← g.tensor (← op.input op.kind.parameterSlot)
  let y ← g.tensor (← op.output op.kind.resultSlot)
  match op.kind with
  | .axiswiseScale axis => AxiswiseScale.kernel g l op axis x s y
  | .deconvolution p => p.kernel g l op x s y

end TensorLowering
