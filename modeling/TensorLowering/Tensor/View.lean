import TensorLowering.Symbol.Table
import TensorLowering.Tensor.Basic

/-!
# Tensor views

A `View` is a tensor whose extents are known numbers: it turns flat indices of the element array
into coordinates along axes and back. The last axis varies fastest. Axes that the tensor does not
have count as axes of extent 1, with coordinate 0 and stride 0.
-/

namespace TensorLowering

/-- An order together with one number for each of its axes. -/
structure View where
  order : Order
  extents : List Nat
  length_extents : extents.length = order.rank
  deriving DecidableEq, Repr

namespace View

/-- The number of elements that a list of extents spans. -/
def span (extents : List Nat) : Nat := extents.foldr (· * ·) 1

/-- The number of elements. -/
def size (v : View) : Nat := span v.extents

/-- The strides, one for each axis: the span of the axes further in. -/
def strides : List Nat → List Nat
  | [] => []
  | _ :: inner => span inner :: strides inner

/-- The extent and the stride of an axis, if the view has it. -/
def dimension? (v : View) (a : Axis) : Option (Nat × Nat) :=
  (v.order.axes.zip (v.extents.zip (strides v.extents))).lookup a

/-- The extent along an axis. -/
def extent (v : View) (a : Axis) : Nat :=
  match v.dimension? a with
  | some (extent, _) => extent
  | none => 1

/-- The distance between neighbours along an axis. -/
def stride (v : View) (a : Axis) : Nat :=
  match v.dimension? a with
  | some (_, stride) => stride
  | none => 0

/-- The coordinate along an axis of the element with a flat index. -/
def coordinate (v : View) (flat : Nat) (a : Axis) : Nat :=
  match v.dimension? a with
  | some (extent, stride) => flat / stride % extent
  | none => 0

/-- Whether a coordinate along an axis would be computed by a division by zero. -/
def dividesByZero (v : View) (a : Axis) : Bool :=
  match v.dimension? a with
  | some (extent, stride) => extent == 0 || stride == 0
  | none => false

end View

/-- The number of a known extent, which must not be negative. -/
def Tensor.extentNumber (x : Tensor) (t : SymbolTable) (extent : Extent) : Lowering Nat := do
  match ← t.evaluate extent with
  | some n =>
    if n < 0 then throw (.shapeMismatch x.subject (.negativeExtent n))
    else pure n.toInt.toNat
  | none => throw (.unsupported x.subject (.unboundExtent (t.render extent)))

/-- The view of a tensor under a table that knows all its extents. -/
def Tensor.view (x : Tensor) (t : SymbolTable) : Lowering View :=
  match h : x.shape.extents.mapM (x.extentNumber t) with
  | .ok extents =>
    .ok ⟨x.shape.order, extents, (Lowering.length_of_mapM h).trans x.shape.length_extents⟩
  | .error e => .error e

end TensorLowering
