import TensorLowering.Graph.Basic
import TensorLowering.Kernel.Basic
import TensorLowering.Kernel.Routine

/-!
# The scaling kernel

Multiplies every element by the scale of its channel. The channel is the innermost axis of the
orders accepted here, so it is the flat index modulo the number of channels; input and output
share one order and are walked with one index.
-/

namespace TensorLowering

namespace AxiswiseScale

/-- One loop over all elements. -/
def routine : Routine where
  family := "axiswise_scale"
  parameters := [⟨.source, "X"⟩, ⟨.target, "Y"⟩, ⟨.source, "S"⟩, ⟨.integer, "N"⟩, ⟨.integer, "C"⟩]
  body :=
    .loop "gid" "N" .assignment
      (.int false "c" (.var "gid" % .var "C") <|
        .float "result" (.product ⟨"X", "gid"⟩ ⟨"S", "c"⟩) <|
          .blank <| .store ⟨"Y", "gid"⟩ "result" .done)
      .done

/-- The orders in which the channel is innermost. -/
def acceptedOrders : List Order := [.nc, .nhwc, .hwnc]

/-- Demands that a tensor has an accepted order. -/
def checkOrder (op : Operator) (x : Tensor) : Lowering Unit :=
  if acceptedOrders.contains x.shape.order then pure ()
  else throw (.unsupported (.operator op.label) (.scaleOrder x.name x.shape.order))

/-- Demands that input and output have one accepted order. -/
def checkOrders (op : Operator) (x y : Tensor) : Lowering Unit := do
  checkOrder op x
  checkOrder op y
  if x.shape.order ≠ y.shape.order then
    throw (.unsupported (.operator op.label)
      (.scaleOrdersDiffer x.name x.shape.order y.name y.shape.order))

/-- What the roles of the kernel stand for. -/
def roles (t : SymbolTable) (l : Layout) (x s y : Tensor) : Lowering (List (String × RoleValue)) := do
  let xRegion ← l.get x.id
  let yRegion ← l.get y.id
  let sRegion ← l.get s.id
  let channels ← y.shape.extent .c
  pure [
    (routine.role "X", .region xRegion),
    (routine.role "Y", .region yRegion),
    (routine.role "S", .region sRegion),
    (routine.role "N", .scalar (t.simplify y.shape.count)),
    (routine.role "C", .scalar (t.simplify channels))]

/-- The kernel of a scaling operator. Only the channel axis can be scaled. -/
def kernel (g : Graph) (l : Layout) (op : Operator) (axis : Axis) (x s y : Tensor) :
    Lowering Kernel := do
  if axis ≠ .c then
    throw (.unsupported (.operator op.label) (.scaleAxis axis))
  checkOrders op x y
  let values ← roles g.symbols l x s y
  Kernel.instantiate routine.template (.ofOperator op) (.ofRoles g.symbols values)

end AxiswiseScale

end TensorLowering
