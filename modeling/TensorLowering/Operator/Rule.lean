import TensorLowering.Obligation
import TensorLowering.Operator.Kind
import TensorLowering.Tensor.Basic

/-!
# Shape rules

What an operator demands of its operands (`OperatorKind.obligations`) and what its result looks
like (`OperatorKind.resultShape`). Conditions on axes are decided at once; conditions on extents
become obligations, because extents may be symbolic. A deconvolution's result extent is
`(input - 1) * stride - 2 * padding + ksize` (`Deconvolution.outputExtent`).
-/

namespace TensorLowering

/-- The operands of an operator while its rule is applied; either may be missing. -/
structure Operands where
  /-- The label of the operator. -/
  operator : String
  data : Option Tensor
  parameter : Option Tensor

namespace Operands

/-- The operands in slot order; what follows the second is ignored. -/
def ofList (operator : String) (tensors : List Tensor) : Operands :=
  ⟨operator, tensors[0]?, tensors[1]?⟩

/-- The tensor bound to a slot. -/
def require (o : Operands) (slot : String) : Option Tensor → Lowering Tensor
  | some x => .ok x
  | none => .error (.invalidGraph (.unboundSlot o.operator slot))

/-- A mismatch of the operator's operands. -/
def mismatch {α : Type} (o : Operands) (fault : ShapeFault) : Lowering α :=
  .error (.shapeMismatch (.operator o.operator) fault)

/-- Demands that a tensor has exactly the axes of an order. -/
def requireAxes (o : Operands) (slot : String) (x : Tensor) (required : Order) : Lowering Unit :=
  if x.shape.order.sameAxes required then .ok ()
  else o.mismatch (.wrongAxes slot required x.shape.order)

end Operands

namespace Deconvolution

/-- The extent of the result along one spatial axis. -/
def outputExtent (input : Extent) (ksize stride padding : UInt64) : Extent :=
  (input - .value 1) * .ofWord stride - .ofWord padding * .value 2 + .ofWord ksize

/-- The height and the width of the result. -/
def spatialOutput (p : Deconvolution) (data : Shape) : Lowering (Extent × Extent) := do
  let height ← data.extent .h
  let width ← data.extent .w
  pure (outputExtent height p.ksize.h p.stride.h p.padding.h,
    outputExtent width p.ksize.w p.stride.w p.padding.w)

end Deconvolution

namespace OperatorKind

/-- The conditions on the operands: axis conditions are checked here, extent conditions are
returned. -/
def obligations (kind : OperatorKind) (o : Operands) : Lowering (List Obligation) := do
  let x ← o.require kind.dataSlot o.data
  let s ← o.require kind.parameterSlot o.parameter
  match kind with
  | axiswiseScale axis =>
    if !x.shape.order.contains axis then
      o.mismatch (.missingScaledAxis axis x.shape.order)
    if s.shape.order.rank != 1 || !s.shape.order.contains axis then
      o.mismatch (.notScaleVector axis s.shape.order)
    let scaled ← s.shape.extent axis
    let input ← x.shape.extent axis
    pure [.equal ("scale length must equal input extent along " ++ axis.text) scaled input]
  | deconvolution p =>
    o.requireAxes kind.dataSlot x .nchw
    o.requireAxes kind.parameterSlot s .nchw
    let (height, width) ← p.spatialOutput x.shape
    let kernelHeight ← s.shape.extent .h
    let kernelWidth ← s.shape.extent .w
    let kernelChannel ← s.shape.extent .c
    let inputChannel ← x.shape.extent .c
    pure [
      .equal "kernel height must equal ksize" kernelHeight (.ofWord p.ksize.h),
      .equal "kernel width must equal ksize" kernelWidth (.ofWord p.ksize.w),
      .equal "kernel channel must equal input channel" kernelChannel inputChannel,
      .positive "output height must be positive" height,
      .positive "output width must be positive" width]

/-- The shape of the result. A scaled tensor keeps its shape; a deconvolution simplifies the
extents of its result under the table and lays them out in the order of the data. -/
def resultShape (kind : OperatorKind) (t : SymbolTable) (o : Operands) : Lowering Shape := do
  let x ← o.require kind.dataSlot o.data
  match kind with
  | axiswiseScale _ => pure x.shape
  | deconvolution p =>
    let w ← o.require kind.parameterSlot o.parameter
    let batch ← x.shape.extent .n
    let (height, width) ← p.spatialOutput x.shape
    let channel ← w.shape.extent .n
    let result : Shape :=
      ⟨.nhwc, [t.simplify batch, t.simplify height, t.simplify width, t.simplify channel], rfl⟩
    result.relabel .relabelling x.shape.order

end OperatorKind

end TensorLowering
