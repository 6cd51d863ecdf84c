import Mathlib.Algebra.Group.Nat.Defs
import TensorLowering.Operator.Rule
import TensorLowering.Proofs.Shape
import TensorLowering.Proofs.Symbol.Evaluation

/-!
# What a rule asks and infers

When the rule of an operator applies to two operands, it says which axes they have and which extents
its obligations and its result are made of (`AxiswiseScale.obligations_eq_ok`,
`Deconvolution.obligations_eq_ok`, `Deconvolution.resultShape_eq_ok`). Parameters are words that a
rule reads as signed ones; below `2^63` both readings are the same (`toInt_toInt64_of_lt`).
-/

namespace TensorLowering

variable {label : String} {x s : Tensor} {os : List Obligation} {t : SymbolTable} {shape : Shape}

namespace Operands

/-- A rule goes on only where it finds no mismatch. -/
theorem mismatch_eq_ok {α β : Type} {c : Prop} [Decidable c] {o : Operands} {fault : ShapeFault}
    {f : α → Lowering β} {rest : Lowering β} {b : β} :
    (if c then o.mismatch fault >>= f else rest) = .ok b ↔ ¬ c ∧ rest = .ok b := by
  by_cases h : c
  · simp [h, mismatch, bind, Except.bind]
  · simp [h]

theorem requireAxes_eq_ok {o : Operands} {slot : String} {required : Order} {u : Unit} :
    o.requireAxes slot x required = .ok u ↔ x.shape.order.sameAxes required = true := by
  unfold requireAxes
  split
  · next h => simp [h]
  · next h => simp [h, mismatch]

end Operands

/-! ## Words -/

/-- A word below `2^63` has one reading. -/
theorem toInt_toInt64_of_lt {n : UInt64} (h : n.toNat < 2^63) : n.toInt64.toInt = n.toNat :=
  BitVec.toInt_eq_toNat_of_lt (x := n.toBitVec) (by rw [UInt64.toNat_toBitVec]; omega)

/-- A word whose signed reading is not negative has one reading. -/
theorem toInt_toInt64 {n : UInt64} (h : 0 ≤ n.toInt64.toInt) : n.toInt64.toInt = n.toNat := by
  refine toInt_toInt64_of_lt (Nat.lt_of_not_le fun hlarge => ?_)
  have hsigned : n.toInt64.toInt = n.toBitVec.toInt := rfl
  rw [hsigned, BitVec.toInt_eq_toNat_cond, UInt64.toNat_toBitVec, if_neg (by omega)] at h
  have hlt := n.toNat_lt
  omega

/-- A word that is not zero has a signed reading that is not. -/
theorem toInt64_ne_zero {n : UInt64} (h : n ≠ 0) : n.toInt64 ≠ 0 :=
  fun hzero => h (congrArg Int64.toUInt64 hzero)

/-! ## Rules -/

/-- A scaling asks that the axis of the data is the only one of the scale, and that both have one
extent along it. -/
theorem AxiswiseScale.obligations_eq_ok {axis : Axis} :
    (OperatorKind.axiswiseScale axis).obligations ⟨label, some x, some s⟩ = .ok os ↔
      x.shape.order.contains axis = true ∧
        (s.shape.order.rank = 1 ∧ s.shape.order.contains axis = true) ∧
        ∃ scaled input, s.shape.extent axis = .ok scaled ∧ x.shape.extent axis = .ok input ∧
          [.equal ("scale length must equal input extent along " ++ axis.text) scaled input] =
            os := by
  have hvector : ¬ (s.shape.order.rank != 1 || !s.shape.order.contains axis) = true ↔
      s.shape.order.rank = 1 ∧ s.shape.order.contains axis = true := by simp
  simp only [OperatorKind.obligations, Operands.require, Computation.ok_bind,
    Operands.mismatch_eq_ok, Computation.bind_eq_ok, Computation.pure_eq_ok, hvector]
  simp

namespace Deconvolution

variable {p : Deconvolution}

/-- The conditions on the extents of the operands of a deconvolution. -/
def conditions (p : Deconvolution) (height width channel kernelHeight kernelWidth kernelChannel :
    Extent) : List Obligation :=
  [.equal "kernel height must equal ksize" kernelHeight (.ofWord p.ksize.h),
    .equal "kernel width must equal ksize" kernelWidth (.ofWord p.ksize.w),
    .equal "kernel channel must equal input channel" kernelChannel channel,
    .positive "output height must be positive"
      (outputExtent height p.ksize.h p.stride.h p.padding.h),
    .positive "output width must be positive"
      (outputExtent width p.ksize.w p.stride.w p.padding.w)]

/-- The extent of the result is open only if that of the data is. -/
theorem evaluate_outputExtent_ne_none {input : Extent} {ksize stride padding : UInt64}
    (h : t.evaluate input ≠ .ok none) :
    t.evaluate (outputExtent input ksize stride padding) ≠ .ok none := by
  have hvalue : ∀ n, t.evaluate (.value n) ≠ .ok none := fun n => nofun
  have hspan := SymbolTable.evaluate_combine_ne_none .mul
    (SymbolTable.evaluate_combine_ne_none .sub h (hvalue 1)) (hvalue stride.toInt64)
  have hpadding := SymbolTable.evaluate_combine_ne_none .mul (hvalue padding.toInt64) (hvalue 2)
  exact SymbolTable.evaluate_combine_ne_none .add
    (SymbolTable.evaluate_combine_ne_none .sub hspan hpadding) (hvalue ksize.toInt64)

/-- A deconvolution asks that both operands are images, and puts conditions on their extents. -/
theorem obligations_eq_ok :
    (OperatorKind.deconvolution p).obligations ⟨label, some x, some s⟩ = .ok os ↔
      (x.shape.order.sameAxes .nchw = true ∧ s.shape.order.sameAxes .nchw = true) ∧
        ∃ height width channel kernelHeight kernelWidth kernelChannel,
          x.shape.extent .h = .ok height ∧ x.shape.extent .w = .ok width ∧
          x.shape.extent .c = .ok channel ∧ s.shape.extent .h = .ok kernelHeight ∧
          s.shape.extent .w = .ok kernelWidth ∧ s.shape.extent .c = .ok kernelChannel ∧
          p.conditions height width channel kernelHeight kernelWidth kernelChannel = os := by
  simp only [OperatorKind.obligations, Operands.require, Computation.ok_bind, spatialOutput,
    Operands.requireAxes_eq_ok, Computation.bind_eq_ok, Computation.pure_eq_ok]
  constructor
  · rintro ⟨_, hx, _, hs, _, ⟨height, hheight, width, hwidth, rfl⟩, kernelHeight, hkh, kernelWidth,
      hkw, kernelChannel, hkc, channel, hc, rfl⟩
    exact ⟨⟨hx, hs⟩, height, width, channel, kernelHeight, kernelWidth, kernelChannel, hheight,
      hwidth, hc, hkh, hkw, hkc, rfl⟩
  · rintro ⟨⟨hx, hs⟩, height, width, channel, kernelHeight, kernelWidth, kernelChannel, hheight,
      hwidth, hc, hkh, hkw, hkc, rfl⟩
    exact ⟨(), hx, (), hs, _, ⟨height, hheight, width, hwidth, rfl⟩, kernelHeight, hkh, kernelWidth,
      hkw, kernelChannel, hkc, channel, hc, rfl⟩

/-- The result of a deconvolution has simplified extents, in the order of the data. -/
theorem resultShape_eq_ok :
    (OperatorKind.deconvolution p).resultShape t ⟨label, some x, some s⟩ = .ok shape ↔
      ∃ batch height width channel, x.shape.extent .n = .ok batch ∧
        x.shape.extent .h = .ok height ∧ x.shape.extent .w = .ok width ∧
        s.shape.extent .n = .ok channel ∧
        Shape.relabel ⟨.nhwc, [t.simplify batch,
            t.simplify (outputExtent height p.ksize.h p.stride.h p.padding.h),
            t.simplify (outputExtent width p.ksize.w p.stride.w p.padding.w),
            t.simplify channel], rfl⟩ .relabelling x.shape.order = .ok shape := by
  simp only [OperatorKind.resultShape, Operands.require, Computation.ok_bind, spatialOutput,
    Computation.bind_eq_ok, Computation.pure_eq_ok]
  constructor
  · rintro ⟨batch, hbatch, _, ⟨height, hheight, width, hwidth, rfl⟩, channel, hchannel, h⟩
    exact ⟨batch, height, width, channel, hbatch, hheight, hwidth, hchannel, h⟩
  · rintro ⟨batch, height, width, channel, hbatch, hheight, hwidth, hchannel, h⟩
    exact ⟨batch, hbatch, _, ⟨height, hheight, width, hwidth, rfl⟩, channel, hchannel, h⟩

end Deconvolution

end TensorLowering
