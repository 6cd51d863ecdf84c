import TensorLowering.Proofs.Execution.Access
import TensorLowering.Proofs.Execution.Run
import TensorLowering.Proofs.Graph.Obligations
import TensorLowering.Proofs.Rule

/-!
# Operators that run

The extents of operands agree where the rule of an operator asked for it when the operator was
applied or a symbol bound. So the scale of a scaling is as long as the axis
(`Graph.Attached.scale_eq`), the views that a deconvolution takes belong together, its result
included (`Graph.Attached.exists_matches`), and an operator whose operands have arrays that fit
computes its result (`Graph.Attached.exists_result`).
-/

namespace TensorLowering

/-! ## Parameters -/

/-- All parameters are below `2^63`, so their signed readings are not negative. -/
structure Deconvolution.Signed (p : Deconvolution) : Prop where
  ksize : p.ksize.h.toNat < 2^63 ∧ p.ksize.w.toNat < 2^63
  stride : p.stride.h.toNat < 2^63 ∧ p.stride.w.toNat < 2^63
  padding : p.padding.h.toNat < 2^63 ∧ p.padding.w.toNat < 2^63

/-- A stride, which is not zero, is a positive signed word. -/
theorem toInt64_pos {n : UInt64} (hn : n ≠ 0) (h : n.toNat < 2^63) : 0 < n.toInt64.toInt := by
  have hne : n.toNat ≠ 0 := fun hzero => hn (UInt64.toNat_inj.1 hzero)
  rw [toInt_toInt64_of_lt h]
  omega

theorem Deconvolution.Signed.stride_pos {p : Deconvolution} (hp : p.Signed) :
    0 < p.stride.h.toInt64.toInt ∧ 0 < p.stride.w.toInt64.toInt :=
  ⟨toInt64_pos p.stride_pos.1 hp.stride.1, toInt64_pos p.stride_pos.2 hp.stride.2⟩

section
variable {t : SymbolTable} {a b : Extent} {n m : Nat} {description label : String}

theorem SymbolTable.Counts.evaluate_ne_none (ha : t.Counts a n) : t.evaluate a ≠ .ok none := by
  obtain ⟨x, hx, -⟩ := ha
  rw [show t.evaluate a = .ok (some x) from hx]
  exact nofun

/-- Extents that are asked to be equal and have numbers have the same. -/
theorem SymbolTable.Counts.eq_of_equal (ha : t.Counts a n) (hb : t.Counts b m)
    (h : (Obligation.equal description a b).Tenable label t) : n = m := by
  obtain ⟨x, hx, hy⟩ := h.holds_of_ne_none (by
    simp [Obligation.equal, Relation.extents, ha.evaluate_ne_none, hb.evaluate_ne_none])
  obtain ⟨x', hx', hn⟩ := ha
  obtain ⟨y', hy', hm⟩ := hb
  cases hx.unique hx'
  cases hy.unique hy'
  omega

/-- An extent that has a number and is asked to equal a word has the number of the word, which then
has one reading. -/
theorem SymbolTable.Counts.eq_of_equal_ofWord {word : UInt64} (ha : t.Counts a n)
    (h : (Obligation.equal description a (.ofWord word)).Tenable label t) :
    n = word.toNat ∧ word.toInt64.toInt = word.toNat := by
  have hword : t.evaluate (.ofWord word) ≠ .ok none := nofun
  obtain ⟨x, hx, hy⟩ := h.holds_of_ne_none (by
    simp [Obligation.equal, Relation.extents, ha.evaluate_ne_none, hword])
  obtain ⟨x', hx', hn⟩ := ha
  cases hx.unique hx'
  cases evaluates_value.1 hy
  have hsame := toInt_toInt64 (n := word) (by omega)
  exact ⟨by omega, hsame⟩

/-- An extent that is asked to be positive has a number if its evaluation is not open. -/
theorem Obligation.Tenable.exists_counts (h : (Obligation.positive description a).Tenable label t)
    (hclosed : t.evaluate a ≠ .ok none) : ∃ n, t.Counts a n := by
  obtain ⟨x, hx, hpos⟩ := h.holds_of_ne_none (by
    simpa [Obligation.positive, Relation.extents] using hclosed)
  have hnonneg := Int64.lt_iff_toInt_lt.1 hpos
  rw [Int64.toInt_zero] at hnonneg
  exact ⟨x.toInt.toNat, x, hx, by omega⟩

end

namespace Graph

section
variable {α : Type} {g : Graph} {op : Operator} {a : Application} {x s y : Tensor}
  {values : Values α} {xs ss : Array α}

/-! ## Operators that run -/

section
variable {p : Deconvolution} {xv sv : View}

/-- The weights of a deconvolution hold a window for each pair of channels, whose height and width
have one reading. -/
theorem Attached.window_eq (hset : g.Settled) (hop : op ∈ g.operators)
    (ha : op.application = some a) (hatt : g.Attached op a x s y)
    (hkind : op.kind = .deconvolution p) (hxv : x.view g.symbols = .ok xv)
    (hsv : s.view g.symbols = .ok sv) :
    (xv.order.axes.Perm [.n, .c, .h, .w] ∧ sv.order.axes.Perm [.n, .c, .h, .w]) ∧
      sv.extent .c = xv.extent .c ∧
      (sv.extent .h = p.ksize.h.toNat ∧ p.ksize.h.toInt64.toInt = p.ksize.h.toNat) ∧
      sv.extent .w = p.ksize.w.toNat ∧ p.ksize.w.toInt64.toInt = p.ksize.w.toNat := by
  obtain ⟨os, hos, htenable, -⟩ := hset op hop
  rw [demands_of_attached ha hatt, hkind, Deconvolution.obligations_eq_ok] at hos
  obtain ⟨⟨hxaxes, hsaxes⟩, _, _, channel, kernelHeight, kernelWidth, kernelChannel, -, -, hchannel,
    hkh, hkw, hkc, rfl⟩ := hos
  simp only [Deconvolution.conditions, List.forall_mem_cons] at htenable
  obtain ⟨hheight, hwidth, hchannels, -⟩ := htenable
  refine ⟨⟨?_, ?_⟩, ?_, ?_, ?_⟩
  · rw [(Tensor.view_eq_ok.1 hxv).1]
    exact Order.perm_of_sameAxes hxaxes
  · rw [(Tensor.view_eq_ok.1 hsv).1]
    exact Order.perm_of_sameAxes hsaxes
  · exact (Tensor.extent_of_view hsv hkc).eq_of_equal (Tensor.extent_of_view hxv hchannel) hchannels
  · exact (Tensor.extent_of_view hsv hkh).eq_of_equal_ofWord hheight
  · exact (Tensor.extent_of_view hsv hkw).eq_of_equal_ofWord hwidth

/-- The result of a deconvolution has a view when the operands have: it is as long as the data along
the batch, and has a channel for each window of the weights. -/
theorem Attached.exists_resultView (hset : g.Settled) (hop : op ∈ g.operators)
    (ha : op.application = some a) (hatt : g.Attached op a x s y)
    (hkind : op.kind = .deconvolution p) (hxv : x.view g.symbols = .ok xv)
    (hsv : s.view g.symbols = .ok sv) :
    ∃ yv, y.view g.symbols = .ok yv ∧ yv.order = xv.order ∧ yv.extent .n = xv.extent .n ∧
      yv.extent .c = sv.extent .n := by
  obtain ⟨os, hos, htenable, -⟩ := hset op hop
  rw [demands_of_attached ha hatt, hkind, Deconvolution.obligations_eq_ok] at hos
  obtain ⟨⟨hxaxes, -⟩, height, width, _, _, _, _, hheight, hwidth, -, -, -, -, rfl⟩ := hos
  simp only [Deconvolution.conditions, List.forall_mem_cons] at htenable
  obtain ⟨-, -, -, hposHeight, hposWidth, -⟩ := htenable
  obtain ⟨t, ht, hshape⟩ := hatt.shape
  rw [hkind, Deconvolution.resultShape_eq_ok] at hshape
  obtain ⟨batch, height', width', channel, hbatch, hheight', hwidth', hchannel, hshape⟩ := hshape
  cases hheight.symm.trans hheight'
  cases hwidth.symm.trans hwidth'
  have hn := ht.counts_simplify (Tensor.extent_of_view hxv hbatch)
  have hc := ht.counts_simplify (Tensor.extent_of_view hsv hchannel)
  -- Height and width have numbers because they were asked to be positive.
  obtain ⟨h, hh⟩ := hposHeight.exists_counts (Deconvolution.evaluate_outputExtent_ne_none
    (Tensor.extent_of_view hxv hheight).evaluate_ne_none)
  obtain ⟨w, hw⟩ := hposWidth.exists_counts (Deconvolution.evaluate_outputExtent_ne_none
    (Tensor.extent_of_view hxv hwidth).evaluate_ne_none)
  obtain ⟨yv, hyv⟩ : ∃ yv, y.view g.symbols = .ok yv := by
    refine Tensor.exists_view fun e he => ?_
    have he := Shape.mem_of_relabel hshape he
    simp only [List.mem_cons, List.not_mem_nil, or_false] at he
    rcases he with rfl | rfl | rfl | rfl
    · exact ⟨_, hn⟩
    · exact ⟨h, ht.counts_simplify hh⟩
    · exact ⟨w, ht.counts_simplify hw⟩
    · exact ⟨_, hc⟩
  have hmem : ∀ axis ∈ [Axis.n, .c, .h, .w], axis ∈ x.shape.order.axes := fun axis =>
    (Order.perm_of_sameAxes hxaxes).mem_iff.2
  have hyn : y.shape.extent .n = .ok (t.simplify batch) :=
    Shape.extent_of_relabel hshape (hmem .n (by decide))
  have hyc : y.shape.extent .c = .ok (t.simplify channel) :=
    Shape.extent_of_relabel hshape (hmem .c (by decide))
  refine ⟨yv, hyv, ?_, (Tensor.extent_of_view hyv hyn).unique hn,
    (Tensor.extent_of_view hyv hyc).unique hc⟩
  rw [(Tensor.view_eq_ok.1 hyv).1, (Tensor.view_eq_ok.1 hxv).1, (Shape.relabel_eq_ok.1 hshape).2.1]

/-- The views that a deconvolution takes belong together. -/
theorem Attached.exists_matches (hset : g.Settled) (hop : op ∈ g.operators)
    (ha : op.application = some a) (hatt : g.Attached op a x s y)
    (hkind : op.kind = .deconvolution p) (hxv : x.view g.symbols = .ok xv)
    (hsv : s.view g.symbols = .ok sv) :
    ∃ yv, y.view g.symbols = .ok yv ∧ p.Matches xv sv yv := by
  obtain ⟨⟨hxaxes, hsaxes⟩, hchannels, ⟨hheight, -⟩, hwidth, -⟩ :=
    hatt.window_eq hset hop ha hkind hxv hsv
  obtain ⟨yv, hyv, horder, hn, hc⟩ := hatt.exists_resultView hset hop ha hkind hxv hsv
  exact ⟨yv, hyv, hxaxes, hsaxes, horder ▸ hxaxes, hn, hc, hchannels, hheight, hwidth⟩

end

/-- The scale of a scaling is a vector with a factor for each position along the axis. -/
theorem Attached.scale_eq {axis : Axis} {xv sv : View} (hset : g.Settled) (hop : op ∈ g.operators)
    (ha : op.application = some a) (hatt : g.Attached op a x s y)
    (hkind : op.kind = .axiswiseScale axis) (hxv : x.view g.symbols = .ok xv)
    (hsv : s.view g.symbols = .ok sv) :
    axis ∈ xv.order.axes ∧ sv.order.rank = 1 ∧ sv.size = xv.extent axis := by
  obtain ⟨os, hos, htenable, -⟩ := hset op hop
  rw [demands_of_attached ha hatt, hkind, AxiswiseScale.obligations_eq_ok] at hos
  obtain ⟨hxaxis, ⟨hrank, hsaxis⟩, scaled, input, hscaled, hinput, rfl⟩ := hos
  have hequal := (List.forall_mem_cons.1 htenable).1
  rw [← (Tensor.view_eq_ok.1 hxv).1] at hxaxis
  rw [← (Tensor.view_eq_ok.1 hsv).1] at hrank hsaxis
  refine ⟨Order.contains_iff.1 hxaxis, hrank, ?_⟩
  rw [View.size_eq_extent hrank (Order.contains_iff.1 hsaxis)]
  exact (Tensor.extent_of_view hsv hscaled).eq_of_equal (Tensor.extent_of_view hxv hinput) hequal

/-- An operator computes its result when both operands have arrays that fit. -/
theorem Attached.exists_result [Zero α] [Add α] [Mul α] (hset : g.Settled) (hop : op ∈ g.operators)
    (ha : op.application = some a) (hatt : g.Attached op a x s y)
    (hwords : ∀ p, op.kind = .deconvolution p → p.Signed) (hxs : values.lookup a.data = some xs)
    (hss : values.lookup a.parameter = some ss) (hx : g.Fits x xs) (hs : g.Fits s ss) :
    ∃ ys, g.runOperator op values = .ok ys := by
  obtain ⟨xv, hxv, hxsize⟩ := hx
  obtain ⟨sv, hsv, hssize⟩ := hs
  cases hkind : op.kind with
  | axiswiseScale axis =>
    obtain ⟨haxis, -, hscale⟩ := hatt.scale_eq hset hop ha hkind hxv hsv
    obtain ⟨ys, hys⟩ := AxiswiseScale.exists_elements hxsize haxis (hssize.trans hscale)
    exact ⟨ys, (hatt.run_scaling_eq_ok ha hkind hxs hss).2 ⟨xv, hxv, hys⟩⟩
  | deconvolution p =>
    obtain ⟨yv, hyv, hmatches⟩ := hatt.exists_matches hset hop ha hkind hxv hsv
    obtain ⟨hh, hw⟩ := (hwords p hkind).stride_pos
    obtain ⟨ys, hys⟩ := Deconvolution.exists_elements hmatches hh hw hxsize hssize
    exact ⟨ys, (hatt.run_deconvolution_eq_ok ha hkind hxs hss).2 ⟨xv, sv, yv, hxv, hsv, hyv, hys⟩⟩

end

end Graph

end TensorLowering
