import Mathlib.Data.Int.ModEq
import TensorLowering.Proofs.Graph.Step
import TensorLowering.Proofs.Rule

/-!
# How long the result of a deconvolution is

Along a spatial axis the result of a deconvolution has length `(input - 1) * stride - 2 * padding +
ksize` (`Deconvolution.outputLength`). A rule reads its parameters as signed words and computes with
words, where an operation whose exact result is not a word has none. So an application to tensors of
literal extents that succeeds gives exactly the formula of the signed parameters
(`Deconvolution.of_outputExtent`). That formula and the formula of the parameters themselves agree
modulo `2^64`, and are equal when a word can hold both; but nothing refuses a parameter from `2^63`
on, whose two readings differ (`Graph.apply_deconvolution_lengths`,
`Graph.apply_deconvolution_wraps`).
-/

namespace TensorLowering

/-! ## Words modulo `2^64` -/

/-- The two readings of a word agree modulo `2^64`. -/
theorem toInt_toInt64_modEq (n : UInt64) : n.toInt64.toInt ≡ n.toNat [ZMOD 2^64] := by
  have hsigned : n.toInt64.toInt = n.toBitVec.toInt := rfl
  rw [hsigned, BitVec.toInt_eq_toNat_cond, UInt64.toNat_toBitVec]
  unfold Int.ModEq
  split
  · rfl
  · omega

/-- Integers that agree modulo `2^64` and that a word can hold are equal. -/
theorem FitsWord.eq_of_modEq {a b : Int} (ha : FitsWord a) (hb : FitsWord b)
    (h : a ≡ b [ZMOD 2^64]) : a = b := by
  have hmin : Int64.minValue.toInt = -2^63 := by decide
  have hmax : Int64.maxValue.toInt = 2^63 - 1 := by decide
  obtain ⟨halow, hahigh⟩ := ha
  obtain ⟨hblow, hbhigh⟩ := hb
  unfold Int.ModEq at h
  omega

/-! ## Literal extents -/

/-- The evaluation of a literal is not open. -/
theorem SymbolTable.evaluate_value_ne_none {t : SymbolTable} (n : Int64) :
    t.evaluate (.value n) ≠ .ok none := nofun

/-- Literals that are asked to be equal are. -/
theorem Obligation.Tenable.eq_of_literals {t : SymbolTable} {description label : String}
    {n m : Int64} (h : (Obligation.equal description (.value n) (.value m)).Tenable label t) :
    n = m := by
  obtain ⟨z, hn, hm⟩ := h.holds_of_ne_none (by
    simp [Obligation.equal, Relation.extents, SymbolTable.evaluate_value_ne_none])
  exact (SymbolTable.evaluates_value.1 hn).trans (SymbolTable.evaluates_value.1 hm).symm

namespace Shape

variable {s : Shape} {axis : Axis} {n m : Int}

/-- Every extent is a literal. -/
def IsConcrete (s : Shape) : Prop := ∀ e ∈ s.extents, e.asValue.isSome = true

instance (s : Shape) : Decidable s.IsConcrete :=
  inferInstanceAs (Decidable (∀ e ∈ s.extents, e.asValue.isSome = true))

/-- The extent along the axis is a literal, and it is this number. -/
def HasLength (s : Shape) (axis : Axis) (n : Int) : Prop :=
  ∃ e : Int64, s.extent axis = .ok (.value e) ∧ e.toInt = n

theorem HasLength.unique (h : s.HasLength axis n) (h' : s.HasLength axis m) : n = m := by
  obtain ⟨e, he, rfl⟩ := h
  obtain ⟨e', he', rfl⟩ := h'
  cases he.symm.trans he'
  rfl

theorem HasLength.fitsWord (h : s.HasLength axis n) : FitsWord n := by
  obtain ⟨e, -, rfl⟩ := h
  exact fitsWord_toInt e

/-- Along its axes a concrete shape has literal extents. -/
theorem IsConcrete.exists_literal (hs : s.IsConcrete) {e : Extent} (he : s.extent axis = .ok e) :
    ∃ n, e = .value n := by
  obtain ⟨i, -, hi⟩ := extent_eq_ok.1 he
  obtain ⟨n, hn⟩ := Option.isSome_iff_exists.1 (hs e (List.mem_of_getElem? hi))
  exact ⟨n, Extent.asValue_eq_some_iff.1 hn⟩

end Shape

/-! ## The formula -/

namespace Deconvolution

open SymbolTable (evaluate_value_ne_none)

variable {t : SymbolTable} {a : Extent} {ksize stride padding : UInt64} {z : Int64}

/-- The length of the result along a spatial axis. -/
def outputLength (input ksize stride padding : Int) : Int :=
  (input - 1) * stride - 2 * padding + ksize

/-- The formula of the signed parameters and that of the parameters agree modulo `2^64`. -/
theorem outputLength_modEq (input : Int) (ksize stride padding : UInt64) :
    outputLength input ksize.toInt64.toInt stride.toInt64.toInt padding.toInt64.toInt ≡
      outputLength input ksize.toNat stride.toNat padding.toNat [ZMOD 2^64] :=
  (((toInt_toInt64_modEq stride).mul_left (input - 1)).sub
    ((toInt_toInt64_modEq padding).mul_left 2)).add (toInt_toInt64_modEq ksize)

/-- The extent of the result has a value only if the extent of the data has one, and then it is
given by the formula of the signed parameters. -/
theorem of_outputExtent (hstride : stride ≠ 0)
    (h : t.Evaluates (outputExtent a ksize stride padding) z) :
    ∃ n, t.Evaluates a n ∧ z.toInt =
      outputLength n.toInt ksize.toInt64.toInt stride.toInt64.toInt padding.toInt64.toInt := by
  obtain ⟨cropped, window, hcropped, hwindow, hz⟩ := h.of_add
  obtain ⟨spread, border, hspread, hborder, hcropped⟩ := hcropped.of_sub
  obtain ⟨gaps, hgaps, hspread⟩ := hspread.of_mul_literal (toInt64_ne_zero hstride)
  obtain ⟨n, one, hn, hone, hgaps⟩ := hgaps.of_sub
  obtain ⟨side, hside, hborder⟩ := hborder.of_mul_literal (by decide)
  cases SymbolTable.evaluates_value.1 hwindow
  cases SymbolTable.evaluates_value.1 hone
  cases SymbolTable.evaluates_value.1 hside
  refine ⟨n, hn, ?_⟩
  rw [hz, hcropped, hspread, hgaps, hborder, outputLength, Int.mul_comm 2]
  rfl

/-! ## One spatial axis -/

/-- Along a spatial axis the weights are as long as the window, and the length of the result is
positive and given by the formula. -/
structure Follows (weights result : Shape) (axis : Axis) (input ksize stride padding : Int) :
    Prop where
  window : weights.HasLength axis ksize
  positive : 0 < outputLength input ksize stride padding
  length : result.HasLength axis (outputLength input ksize stride padding)

/-- What the application of a deconvolution comes to along a spatial axis: the formula holds of the
signed parameters, and of the parameters themselves just when the window and the length that the
formula gives can be held, in particular when all parameters have one reading. -/
structure Outcome (weights result : Shape) (axis : Axis) (input : Int)
    (ksize stride padding : UInt64) : Prop where
  signed : Follows weights result axis input ksize.toInt64.toInt stride.toInt64.toInt
    padding.toInt64.toInt
  exact_iff : Follows weights result axis input ksize.toNat stride.toNat padding.toNat ↔
    ksize.toNat < 2^63 ∧ FitsWord (outputLength input ksize.toNat stride.toNat padding.toNat)
  exact_of_lt : ksize.toNat < 2^63 → stride.toNat < 2^63 → padding.toNat < 2^63 →
    Follows weights result axis input ksize.toNat stride.toNat padding.toNat

variable {weights result : Shape} {axis : Axis} {input : Int}

theorem Follows.outcome (h : Follows weights result axis input ksize.toInt64.toInt
    stride.toInt64.toInt padding.toInt64.toInt) :
    Outcome weights result axis input ksize stride padding := by
  refine ⟨h, ⟨fun hexact => ⟨?_, hexact.length.fitsWord⟩, fun hfits => ?_⟩, fun hk hs hp => ?_⟩
  · have hsame := h.window.unique hexact.window
    have hmax : ksize.toInt64.toInt ≤ Int64.maxValue.toInt := (fitsWord_toInt _).2
    rw [show Int64.maxValue.toInt = 2^63 - 1 by decide] at hmax
    omega
  · -- Both formulas give words, so they give the same.
    have hlength := h.length.fitsWord.eq_of_modEq hfits.2 (outputLength_modEq input ..)
    refine ⟨?_, hlength ▸ h.positive, hlength ▸ h.length⟩
    rw [← toInt_toInt64_of_lt hfits.1]
    exact h.window
  · rw [← toInt_toInt64_of_lt hk, ← toInt_toInt64_of_lt hs, ← toInt_toInt64_of_lt hp]
    exact h

/-- Along an axis where data and weights are literals, an application that was not refused has the
outcome that the formula gives. -/
theorem outcome_of_tenable {label asked bound : String} {x w y : Shape} {e k : Extent}
    (hx : x.IsConcrete) (hw : w.IsConcrete) (hstride : stride ≠ 0)
    (he : x.extent axis = .ok e) (hk : w.extent axis = .ok k)
    (hwindow : (Obligation.equal asked k (.ofWord ksize)).Tenable label t)
    (hlength : (Obligation.positive bound (outputExtent e ksize stride padding)).Tenable label t)
    (hy : y.extent axis = .ok (t.simplify (outputExtent e ksize stride padding))) :
    ∃ n, x.HasLength axis n ∧ Outcome w y axis n ksize stride padding := by
  obtain ⟨n, rfl⟩ := hx.exists_literal he
  obtain ⟨m, rfl⟩ := hw.exists_literal hk
  have hm : m = ksize.toInt64 := hwindow.eq_of_literals
  obtain ⟨z, hz, hpos⟩ := hlength.holds_of_ne_none (by
    simpa [Obligation.positive, Relation.extents] using
      evaluate_outputExtent_ne_none (evaluate_value_ne_none n))
  obtain ⟨n', hn, hformula⟩ := of_outputExtent hstride hz
  cases SymbolTable.evaluates_value.1 hn
  refine ⟨n.toInt, ⟨n, he, rfl⟩, Follows.outcome ⟨⟨m, hk, congrArg Int64.toInt hm⟩, ?_, z, ?_,
    hformula⟩⟩
  · rw [← hformula]
    exact Int64.lt_iff_toInt_lt.1 hpos
  · rw [hy, hz.simplify_eq]

/-! ## All axes -/

/-- What the rule of a deconvolution makes of data and weights of literal extents, if none of its
obligations is violated. -/
theorem lengths_of_rule {p : Deconvolution} {label : String} {x w : Tensor}
    {obligations : List Obligation} {y : Shape} (hx : x.shape.IsConcrete) (hw : w.shape.IsConcrete)
    (hobl : (OperatorKind.deconvolution p).obligations ⟨label, some x, some w⟩ = .ok obligations)
    (hten : ∀ o ∈ obligations, o.Tenable label t)
    (hshape : (OperatorKind.deconvolution p).resultShape t ⟨label, some x, some w⟩ = .ok y) :
    y.order = x.shape.order ∧
      (∃ n, x.shape.HasLength .n n ∧ y.HasLength .n n) ∧
      (∃ n, w.shape.HasLength .n n ∧ y.HasLength .c n) ∧
      (∃ n, x.shape.HasLength .c n ∧ w.shape.HasLength .c n) ∧
      (∃ n, x.shape.HasLength .h n ∧ Outcome w.shape y .h n p.ksize.h p.stride.h p.padding.h) ∧
      ∃ n, x.shape.HasLength .w n ∧ Outcome w.shape y .w n p.ksize.w p.stride.w p.padding.w := by
  obtain ⟨⟨himage, -⟩, height, width, channel, kernelHeight, kernelWidth, kernelChannel, hheight,
    hwidth, hchannel, hkh, hkw, hkc, rfl⟩ := obligations_eq_ok.1 hobl
  obtain ⟨batch, height', width', filters, hbatch, hheight', hwidth', hfilters, hshape⟩ :=
    resultShape_eq_ok.1 hshape
  cases hheight.symm.trans hheight'
  cases hwidth.symm.trans hwidth'
  have hlookup : ∀ axis ∈ [Axis.n, .c, .h, .w], y.extent axis = Shape.extent _ axis :=
    fun axis haxis => Shape.extent_of_relabel hshape
      ((Order.perm_of_sameAxes himage).mem_iff.2 haxis)
  simp only [conditions, List.forall_mem_cons] at hten
  obtain ⟨hwindowHeight, hwindowWidth, hchannels, hposHeight, hposWidth, -⟩ := hten
  -- The four extents of the data and the weights that are not along a spatial axis.
  obtain ⟨n, rfl⟩ := hx.exists_literal hbatch
  obtain ⟨m, rfl⟩ := hw.exists_literal hfilters
  obtain ⟨c, rfl⟩ := hx.exists_literal hchannel
  obtain ⟨c', rfl⟩ := hw.exists_literal hkc
  have hc : c' = c := hchannels.eq_of_literals
  refine ⟨Shape.order_of_relabel hshape,
    ⟨n.toInt, ⟨n, hbatch, rfl⟩, n, hlookup .n (by decide), rfl⟩,
    ⟨m.toInt, ⟨m, hfilters, rfl⟩, m, hlookup .c (by decide), rfl⟩,
    ⟨c.toInt, ⟨c, hchannel, rfl⟩, c', hkc, congrArg Int64.toInt hc⟩, ?_, ?_⟩
  · exact outcome_of_tenable hx hw p.stride_pos.1 hheight hkh hwindowHeight hposHeight
      (hlookup .h (by decide))
  · exact outcome_of_tenable hx hw p.stride_pos.2 hwidth hkw hwindowWidth hposWidth
      (hlookup .w (by decide))

end Deconvolution

namespace Graph

open Deconvolution

variable {g after : Graph} {id : OperatorId} {op : Operator} {p : Deconvolution}
  {data parameter result : TensorId} {x w : Tensor}

/-- When a deconvolution is applied to data and weights of literal extents, and the application
succeeds, its result has the order of the data. The batch is that of the data, the channels are
those that the weights produce, and the weights take the channels of the data. Height and width are
given by the formula, read with signed parameters. -/
theorem apply_deconvolution_lengths (hop : g.operator id = .ok op)
    (hkind : op.kind = .deconvolution p) (hdata : g.tensor data = .ok x)
    (hparameter : g.tensor parameter = .ok w) (hx : x.shape.IsConcrete) (hw : w.shape.IsConcrete)
    (h : g.apply id [data, parameter] = .ok (after, result)) :
    ∃ y, after.tensor result = .ok y ∧ y.shape.order = x.shape.order ∧
      (∃ n, x.shape.HasLength .n n ∧ y.shape.HasLength .n n) ∧
      (∃ n, w.shape.HasLength .n n ∧ y.shape.HasLength .c n) ∧
      (∃ n, x.shape.HasLength .c n ∧ w.shape.HasLength .c n) ∧
      (∃ n, x.shape.HasLength .h n ∧
        Outcome w.shape y.shape .h n p.ksize.h p.stride.h p.padding.h) ∧
      ∃ n, x.shape.HasLength .w n ∧
        Outcome w.shape y.shape .w n p.ksize.w p.stride.w p.padding.w := by
  obtain ⟨op', data', parameter', x', w', obligations, shape, hinputs, hop', -, hx', hw', hobl,
    hten, hshape, hr⟩ := apply_eq_ok.1 h
  cases hinputs
  cases (operator_eq_ok.1 hop).symm.trans hop'
  cases (tensor_eq_ok.1 hdata).symm.trans hx'
  cases (tensor_eq_ok.1 hparameter).symm.trans hw'
  cases hr
  rw [hkind] at hobl hshape
  refine ⟨_, tensor_eq_ok.2 ((tensors_attach ?_ ?_ _).trans (if_pos rfl)),
    lengths_of_rule hx hw hobl hten hshape⟩
  · exact (List.getElem?_eq_some_iff.1 hx').1
  · exact (List.getElem?_eq_some_iff.1 hw').1

/-- A deconvolution whose window, stride and padding differ between the axes. -/
def slanted (padding : UInt64) : Deconvolution :=
  ⟨⟨3, 2⟩, ⟨2, 3⟩, ⟨padding, 0⟩, by decide, by decide⟩

/-- Data and weights for it, before it is applied. -/
def slantedRows (padding : UInt64) : Graph :=
  empty.replay [.addTensor .input "x" .nhwc [.value 1, .value 4, .value 5, .value 2],
    .addTensor .weight "w" .nchw [.value 6, .value 2, .value 3, .value 2],
    .addOperator none (.deconvolution (slanted padding))]

/-- The graph after the application. -/
def slantedResult (padding : UInt64) : Graph := (slantedRows padding).replay [.apply 0 [0, 1]]

/-- With a padding of one, four rows become `3 * 2 - 2 + 3`. -/
theorem apply_deconvolution_lengths_slantedRows :
    (slantedRows 1).apply 0 [0, 1] = .ok (slantedResult 1, 2) ∧
      ∃ y, (slantedResult 1).tensor 2 = .ok y ∧ y.shape.order = .nhwc ∧ y.shape.HasLength .h 7 := by
  have happly : (slantedRows 1).apply 0 [0, 1] = .ok (slantedResult 1, 2) := rfl
  obtain ⟨y, hy, horder, -, -, -, ⟨n, ⟨e, he, rfl⟩, houtcome⟩, -⟩ :=
    apply_deconvolution_lengths (p := slanted 1) rfl rfl rfl rfl (by decide) (by decide) happly
  cases he
  exact ⟨happly, y, hy, horder, (houtcome.exact_of_lt (by decide) (by decide) (by decide)).length⟩

/-- A padding of `2^64 - 1` is read as minus one. The application succeeds with eleven rows, where
the formula gives the result a negative length. -/
theorem apply_deconvolution_wraps :
    ofParameters ⟨3, 2⟩ ⟨2, 3⟩ ⟨18446744073709551615, 0⟩ = .ok (slanted 18446744073709551615) ∧
      (slantedRows 18446744073709551615).apply 0 [0, 1] =
        .ok (slantedResult 18446744073709551615, 2) ∧
      ∃ x w y, (slantedRows 18446744073709551615).tensor 0 = .ok x ∧
        (slantedRows 18446744073709551615).tensor 1 = .ok w ∧
        (slantedResult 18446744073709551615).tensor 2 = .ok y ∧
        x.shape.HasLength .h 4 ∧ y.shape.HasLength .h 11 ∧
        ¬ Follows w.shape y.shape .h 4 3 2 18446744073709551615 :=
  ⟨rfl, rfl, _, _, _, rfl, rfl, rfl, ⟨4, rfl, rfl⟩, ⟨11, rfl, rfl⟩,
    fun h => absurd h.positive (by decide)⟩

end Graph

end TensorLowering
