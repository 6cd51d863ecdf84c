import TensorLowering.Execution.Basic

/-!
# Executing a scaling

Every element is multiplied by the scale at its coordinate along the scaled axis.
-/

namespace TensorLowering

namespace AxiswiseScale

variable {α : Type}

/-- Every element times the scale at its coordinate. -/
def elements [Mul α] (v : View) (axis : Axis) (data scale : Array α) :
    Execution (Array α) := do
  let elements ← data.toList.zipIdx.mapM fun (a, flat) => do
    let i ← coordinateIn v flat axis
    let s ← elementAt scale i
    pure (a * s)
  pure elements.toArray

end AxiswiseScale

end TensorLowering
