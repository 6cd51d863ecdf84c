import TensorLowering.Error.Basic

/-!
# Operator kinds

The closed set of operators and their parameters: scaling along an axis, and the transposed
convolution of images. A deconvolution with a window or a stride of zero does not exist
(`Deconvolution.ofParameters`).
-/

namespace TensorLowering

/-- A pair of a height and a width. -/
structure Spatial where
  h : UInt64
  w : UInt64
  deriving DecidableEq, Repr

namespace Spatial

/-- Both parts differ from zero. -/
def IsPositive (s : Spatial) : Prop := s.h ≠ 0 ∧ s.w ≠ 0

instance (s : Spatial) : Decidable s.IsPositive := inferInstanceAs (Decidable (_ ∧ _))

/-- The pair, height first. -/
def text (s : Spatial) : String :=
  "(" ++ toString s.h.toNat ++ ", " ++ toString s.w.toNat ++ ")"

end Spatial

/-- The parameters of a deconvolution. -/
structure Deconvolution where
  ksize : Spatial
  stride : Spatial
  padding : Spatial
  ksize_pos : ksize.IsPositive
  stride_pos : stride.IsPositive
  deriving DecidableEq, Repr

/-- The deconvolution with the given parameters; window and stride must be positive. -/
def Deconvolution.ofParameters (ksize stride padding : Spatial) : Lowering Deconvolution :=
  if h : ksize.IsPositive ∧ stride.IsPositive then .ok ⟨ksize, stride, padding, h.1, h.2⟩
  else .error (.unsupported .deconvolution (.zeroWindow ksize.h ksize.w stride.h stride.w))

/-- A structural property of an operator, for passes that move data. -/
inductive Attribute where
  /-- Each output element depends on the input element at the same index only. -/
  | elementwise
  /-- Parameters are broadcast along the axis. -/
  | axiswise (axis : Axis)
  /-- Slices along the axis are computed independently. -/
  | tensorwise (axis : Axis)
  deriving DecidableEq, Repr

/-- An operator kind with its parameters. -/
inductive OperatorKind where
  /-- Multiplies the data by a vector broadcast along an axis. -/
  | axiswiseScale (axis : Axis)
  /-- Scatters every data element over a window of the result. -/
  | deconvolution (parameters : Deconvolution)
  deriving DecidableEq, Repr

namespace OperatorKind

/-- The name of the kind. -/
def name : OperatorKind → String
  | axiswiseScale _ => "AxiswiseScale"
  | deconvolution _ => "Deconvolution2D"

/-- The slot of the data operand. -/
def dataSlot (_ : OperatorKind) : String := "x"

/-- The slot of the parameter operand: the scale or the kernel weights. -/
def parameterSlot : OperatorKind → String
  | axiswiseScale _ => "s"
  | deconvolution _ => "w"

/-- The slot of the result. -/
def resultSlot (_ : OperatorKind) : String := "y"

/-- The operand slots in order. -/
def inputSlots (kind : OperatorKind) : List String := [kind.dataSlot, kind.parameterSlot]

/-- The result slots in order. -/
def outputSlots (kind : OperatorKind) : List String := [kind.resultSlot]

/-- The structural properties of the kind. -/
def attributes : OperatorKind → List Attribute
  | axiswiseScale axis => [.elementwise, .axiswise axis]
  | deconvolution _ => [.tensorwise .n]

/-- The parameters, for reports. -/
def describe : OperatorKind → String
  | axiswiseScale axis => "axis=" ++ axis.text
  | deconvolution p =>
    "ksize=" ++ p.ksize.text ++ " stride=" ++ p.stride.text ++ " padding=" ++ p.padding.text

/-- The name of an operator that was given none. -/
def defaultName (kind : OperatorKind) (id : Nat) : String := kind.name ++ toString id

end OperatorKind

end TensorLowering
