import Mathlib
import TensorLowering.Proofs.Execution.Totality
import TensorLowering.Proofs.Kernel.Correctness

/-!
# A deconvolution is a transposed convolution

The reference execution gathers: for an element of the result it looks for the input elements whose
window reaches it. The mathematical definition scatters: an input element at a row `h1` reaches, by
the window position `kh`, the row `h2` with `h1 * stride + kh = h2 + padding`. With parameters below
`2^63` the search inverts this relation exactly (`Deconvolution.sourceIndex?_eq_some`), so with
exact arithmetic every element of the result is the sum over all input elements and window positions
that reach it (`Deconvolution.scattered`, `Graph.Reachable.deconvolution_scatters`), in whatever
order the axes of data and weights are.
-/

namespace TensorLowering

open Finset

/-- The element of an image at a position; zero where the array has none. -/
def View.pixel {α : Type} [Zero α] (v : View) (data : Array α) (n c h w : Nat) : α :=
  (data[v.flatten (imageCoord (n, h, w, c))]?).getD 0

namespace Deconvolution

section
variable {out tap extent : Nat} {stride padding : UInt64}

/-! ## Inverting the reach of a window -/

/-- A number is a multiple of a positive step when it is not negative, leaves no remainder and has
the factor as its quotient. -/
theorem quotient_eq_iff {shifted step i : Int} (hstep : 0 < step) (hi : 0 ≤ i) :
    (0 ≤ shifted ∧ shifted.tmod step = 0) ∧ shifted.tdiv step = i ↔ shifted = step * i := by
  constructor
  · rintro ⟨⟨-, hmod⟩, rfl⟩
    exact (Int.mul_tdiv_cancel_of_dvd (Int.dvd_of_tmod_eq_zero hmod)).symm
  · rintro rfl
    exact ⟨⟨Int.mul_nonneg hstep.le hi, Int.mul_tmod_right _ _⟩,
      Int.mul_tdiv_cancel_left _ hstep.ne'⟩

/-- The search finds the input coordinate that reaches a result coordinate by a window position. -/
theorem sourceIndex?_eq_some (hpos : stride ≠ 0) (hstride : stride.toNat < 2^63)
    (hpadding : padding.toNat < 2^63) {i : Nat} :
    sourceIndex? out tap stride padding extent = some (i : Int) ↔
      i < extent ∧ i * stride.toNat + tap = out + padding.toNat := by
  have hstep : 0 < stride.toInt64.toInt := toInt64_pos hpos hstride
  rw [toInt_toInt64_of_lt hstride] at hstep
  have hreach : i * stride.toNat + tap = out + padding.toNat ↔
      (out : Int) + (padding.toNat : Int) - (tap : Int) = stride.toNat * (i : Int) := by
    have hcomm : ((i * stride.toNat : Nat) : Int) = stride.toNat * (i : Int) := by
      push_cast
      exact mul_comm _ _
    omega
  rw [hreach, ← quotient_eq_iff hstep (Int.natCast_nonneg i)]
  simp only [sourceIndex?, toInt_toInt64_of_lt hstride, toInt_toInt64_of_lt hpadding,
    Option.ite_none_left_eq_some, Option.ite_none_right_eq_some, Option.some.injEq, not_or,
    Int.not_lt, not_not]
  constructor
  · rintro ⟨hexact, hlt, hquotient⟩
    exact ⟨by omega, hexact, hquotient⟩
  · rintro ⟨hlt, hexact, hquotient⟩
    exact ⟨hexact, by omega, hquotient⟩

/-- The source coordinate of a result coordinate is a coordinate within the extent. -/
theorem exists_coordinate (hpos : stride ≠ 0) (hstride : stride.toNat < 2^63) {i : Int}
    (hi : sourceIndex? out tap stride padding extent = some i) : ∃ coord : Nat, i = coord := by
  have hmem : (tap, i) ∈ sources (tap + 1) out stride padding extent :=
    List.mem_filterMap.2 ⟨tap, List.mem_range.2 (Nat.lt_succ_self tap), by rw [hi]; rfl⟩
  obtain ⟨-, coord, hcoord, -⟩ := mem_sources (toInt64_pos hpos hstride) hmem
  exact ⟨coord, hcoord⟩

/-! ## Sums over what reaches a coordinate -/

variable {α : Type} [AddCommMonoid α]

/-- What is added for the source coordinate is the sum over all coordinates that reach. -/
theorem sum_source (hpos : stride ≠ 0) (hstride : stride.toNat < 2^63)
    (hpadding : padding.toNat < 2^63) (f : Int → α) :
    (sourceIndex? out tap stride padding extent).elim 0 f =
      ∑ i ∈ range extent, if i * stride.toNat + tap = out + padding.toNat then f i else 0 := by
  cases hsource : sourceIndex? out tap stride padding extent with
  | none =>
    refine (sum_eq_zero fun i hi => if_neg fun hreach => ?_).symm
    have hsome := (sourceIndex?_eq_some hpos hstride hpadding).2 ⟨mem_range.1 hi, hreach⟩
    rw [hsource] at hsome
    cases hsome
  | some j =>
    obtain ⟨coord, rfl⟩ := exists_coordinate hpos hstride hsource
    obtain ⟨hlt, hreach⟩ := (sourceIndex?_eq_some hpos hstride hpadding).1 hsource
    -- No other coordinate reaches, because the source coordinate is one.
    have hother : ∀ i ∈ range extent, i ≠ coord →
        (if i * stride.toNat + tap = out + padding.toNat then f i else 0) = 0 := by
      intro i hi hne
      refine if_neg fun hreach' => hne ?_
      have hsome := (sourceIndex?_eq_some hpos hstride hpadding).2 ⟨mem_range.1 hi, hreach'⟩
      rw [hsource] at hsome
      exact_mod_cast (Option.some.inj hsome).symm
    rw [sum_eq_single coord hother fun hout => absurd (mem_range.2 hlt) hout, if_pos hreach]
    rfl

/-- The sum over lists that are joined is the sum of their sums. -/
theorem sum_map_flatMap_range {β : Type} (n : Nat) (lists : Nat → List β) (f : β → α) :
    (((List.range n).flatMap lists).map f).sum = ∑ i ∈ range n, ((lists i).map f).sum := by
  induction n with
  | zero => rfl
  | succ n ih =>
    rw [List.range_succ, List.flatMap_append, List.map_append, List.sum_append, ih,
      List.flatMap_singleton, sum_range_succ]

/-- The sum over the window positions with their source coordinates is the sum over the window
positions and all coordinates that reach by them. -/
theorem sum_sources {β : Type} (hpos : stride ≠ 0) (hstride : stride.toNat < 2^63)
    (hpadding : padding.toNat < 2^63) (window : Nat) (lists : Nat × Int → List β) (f : β → α) :
    (((sources window out stride padding extent).flatMap lists).map f).sum =
      ∑ tap ∈ range window, ∑ i ∈ range extent,
        if i * stride.toNat + tap = out + padding.toNat then ((lists (tap, i)).map f).sum
        else 0 := by
  rw [flatMap_sources, sum_map_flatMap_range]
  refine sum_congr rfl fun tap _ => ?_
  rw [← sum_source hpos hstride hpadding fun i => ((lists (tap, i)).map f).sum]
  cases sourceIndex? out tap stride padding extent with
  | none => rfl
  | some i => rfl

end

/-! ## The sum of all products that reach an element -/

section
variable {α : Type} [AddCommMonoid α] [Mul α] {p : Deconvolution} {x w y : View}
  {data weights : Array α} {n c2 h2 w2 : Nat}

/-- The element of the transposed convolution at a position: the products of all input elements and
weights whose row and column reach it. -/
def scattered (p : Deconvolution) (x w : View) (data weights : Array α) (n c2 h2 w2 : Nat) : α :=
  ∑ c1 ∈ range (x.extent .c), ∑ h1 ∈ range (x.extent .h), ∑ w1 ∈ range (x.extent .w),
    ∑ kh ∈ range p.ksize.h.toNat, ∑ kw ∈ range p.ksize.w.toNat,
      if h1 * p.stride.h.toNat + kh = h2 + p.padding.h.toNat ∧
          w1 * p.stride.w.toNat + kw = w2 + p.padding.w.toNat then
        x.pixel data n c1 h1 w1 * w.pixel weights c2 c1 kh kw
      else 0

/-- The product of the elements at an index pair. -/
def product (data weights : Array α) (tap : Int × Int) : α :=
  (data[tap.1.toNat]?).getD 0 * (weights[tap.2.toNat]?).getD 0

/-- The reference execution sums up the products of the index pairs. -/
theorem accumulate_eq_sum {taps : List (Int × Int)} (h : ∀ tap ∈ taps,
    ∃ i j : Nat, tap = ((i : Int), (j : Int)) ∧ i < data.size ∧ j < weights.size) (sum : α) :
    accumulate data weights sum taps = .ok (sum + (taps.map (product data weights)).sum) := by
  induction taps generalizing sum with
  | nil => rw [List.map_nil, List.sum_nil, add_zero]; rfl
  | cons tap rest ih =>
    obtain ⟨⟨i, j, rfl, hi, hj⟩, hrest⟩ := List.forall_mem_cons.1 h
    have hproduct : product data weights ((i : Int), (j : Int)) = data[i] * weights[j] := by
      simp [product, hi, hj]
    rw [accumulate, elementAt_of_lt hi, Computation.ok_bind, elementAt_of_lt hj,
      Computation.ok_bind, ih hrest, List.map_cons, List.sum_cons, hproduct, add_assoc]

/-- The product at the index pair of an input element and a weight. -/
theorem product_eq (hm : p.Matches x w y) (n c2 c1 h1 w1 kh kw : Nat) :
    product data weights (dataIndex x n c1 h1 w1, weightIndex w c2 c1 kh kw) =
      x.pixel data n c1 h1 w1 * w.pixel weights c2 c1 kh kw := by
  rw [product, dataIndex_natCast, weightIndex_natCast, View.pixel, View.pixel,
    View.flatten_image hm.data_axes, View.flatten_image hm.weight_axes]
  rfl

omit [Mul α] in
/-- Sums over five indices, with the channel and the input coordinates moved to the front. -/
theorem sum_five_comm (C H W K L : Finset Nat) (f : Nat → Nat → Nat → Nat → Nat → α) :
    ∑ kh ∈ K, ∑ h1 ∈ H, ∑ kw ∈ L, ∑ w1 ∈ W, ∑ c1 ∈ C, f c1 h1 w1 kh kw =
      ∑ c1 ∈ C, ∑ h1 ∈ H, ∑ w1 ∈ W, ∑ kh ∈ K, ∑ kw ∈ L, f c1 h1 w1 kh kw := by
  calc ∑ kh ∈ K, ∑ h1 ∈ H, ∑ kw ∈ L, ∑ w1 ∈ W, ∑ c1 ∈ C, f c1 h1 w1 kh kw
      = ∑ kh ∈ K, ∑ h1 ∈ H, ∑ c1 ∈ C, ∑ w1 ∈ W, ∑ kw ∈ L, f c1 h1 w1 kh kw := by
        refine sum_congr rfl fun kh _ => sum_congr rfl fun h1 _ => ?_
        rw [sum_comm_cycle]
        exact sum_congr rfl fun c1 _ => sum_comm
    _ = ∑ c1 ∈ C, ∑ kh ∈ K, ∑ h1 ∈ H, ∑ w1 ∈ W, ∑ kw ∈ L, f c1 h1 w1 kh kw := sum_comm_cycle
    _ = ∑ c1 ∈ C, ∑ h1 ∈ H, ∑ w1 ∈ W, ∑ kh ∈ K, ∑ kw ∈ L, f c1 h1 w1 kh kw :=
        sum_congr rfl fun c1 _ => sum_comm_cycle.symm

/-- The products of the index pairs add up to those of all elements that reach. -/
theorem sum_taps (hm : p.Matches x w y) (hp : p.Signed) :
    ((p.taps x w n c2 h2 w2).map (product data weights)).sum =
      p.scattered x w data weights n c2 h2 w2 := by
  have hchannels : ∀ h1 w1 kh kw : Nat,
      (((List.range (x.extent .c)).map fun c1 =>
        (dataIndex x n c1 h1 w1, weightIndex w c2 c1 kh kw)).map (product data weights)).sum =
        ∑ c1 ∈ range (x.extent .c), x.pixel data n c1 h1 w1 * w.pixel weights c2 c1 kh kw := by
    intro h1 w1 kh kw
    calc (((List.range (x.extent .c)).map fun c1 =>
          (dataIndex x n c1 h1 w1, weightIndex w c2 c1 kh kw)).map (product data weights)).sum
        = ∑ c1 ∈ range (x.extent .c),
            product data weights (dataIndex x n c1 h1 w1, weightIndex w c2 c1 kh kw) := by
          rw [List.map_map]
          rfl
      _ = ∑ c1 ∈ range (x.extent .c), x.pixel data n c1 h1 w1 * w.pixel weights c2 c1 kh kw :=
          sum_congr rfl fun c1 _ => product_eq hm n c2 c1 h1 w1 kh kw
  rw [taps, sum_sources p.stride_pos.1 hp.stride.1 hp.padding.1]
  simp only [sum_sources p.stride_pos.2 hp.stride.2 hp.padding.2, hchannels, ite_sum_zero,
    ← ite_and]
  exact sum_five_comm _ _ _ _ _ _

/-- The reference execution computes the element of the transposed convolution. -/
theorem accumulate_taps (hm : p.Matches x w y) (hp : p.Signed) (hdata : data.size = x.size)
    (hweights : weights.size = w.size) (hn : n < x.extent .n) (hc2 : c2 < w.extent .n) :
    accumulate data weights 0 (p.taps x w n c2 h2 w2) =
      .ok (p.scattered x w data weights n c2 h2 w2) := by
  have hbounds : ∀ tap ∈ p.taps x w n c2 h2 w2,
      ∃ i j : Nat, tap = ((i : Int), (j : Int)) ∧ i < x.size ∧ j < w.size :=
    taps_lt hm hp.stride_pos.1 hp.stride_pos.2 hn hc2
  rw [← hdata, ← hweights] at hbounds
  rw [accumulate_eq_sum hbounds, zero_add, sum_taps hm hp]

end

end Deconvolution

/-! ## Deconvolutions of a graph -/

namespace Graph

section
variable {α : Type} [AddCommMonoid α] [Mul α] {g : Graph} {op : Operator} {a : Application}
  {p : Deconvolution} {x w : Tensor} {xs ws : Array α} {i : OperatorId}

/-- A deconvolution with parameters below `2^63` is a transposed convolution. On arrays that fit its
operands the operator runs, an execution that has these arrays for the operands has its result, and
with exact arithmetic the result at a position is the sum of the products of all input elements and
weights that reach it. The axis `n` of the weights is the channel of the result. -/
theorem Reachable.deconvolution_scatters (hg : g.Reachable) (hop : g.operator i = .ok op)
    (ha : op.application = some a) (hkind : op.kind = .deconvolution p) (hp : p.Signed)
    (hx : g.tensor a.data = .ok x) (hw : g.tensor a.parameter = .ok w) (hxs : g.Fits x xs)
    (hws : g.Fits w ws) :
    ∃ y xv wv yv ys, g.tensor a.result = .ok y ∧ x.view g.symbols = .ok xv ∧
      w.view g.symbols = .ok wv ∧ y.view g.symbols = .ok yv ∧ p.Matches xv wv yv ∧
      (∀ values : Values α, values.lookup a.data = some xs → values.lookup a.parameter = some ws →
        g.runOperator op values = .ok ys) ∧
      (∀ (host : HostData α) (final : Values α), g.execute host = .ok final →
        final.get a.data = .ok xs → final.get a.parameter = .ok ws →
        final.get a.result = .ok ys) ∧
      ys.size = yv.size ∧
      ∀ n c2 h2 w2, n < yv.extent .n → c2 < yv.extent .c → h2 < yv.extent .h →
        w2 < yv.extent .w → ys[yv.flatten (View.imageCoord (n, h2, w2, c2))]? =
          some (p.scattered xv wv xs ws n c2 h2 w2) := by
  have hat := operator_eq_ok.1 hop
  have hmem := List.mem_of_getElem? hat
  obtain ⟨x', w', y, hatt⟩ := hg.coherent.attached op hmem a ha
  cases (tensor_eq_ok.2 hatt.data).symm.trans hx
  cases (tensor_eq_ok.2 hatt.parameter).symm.trans hw
  obtain ⟨xv, hxv, hxsize⟩ := hxs
  obtain ⟨wv, hwv, hwsize⟩ := hws
  obtain ⟨yv, hyv, hmatches⟩ := hatt.exists_matches hg.settled hmem ha hkind hxv hwv
  obtain ⟨ys, hys⟩ := Deconvolution.exists_elements hmatches hp.stride_pos.1 hp.stride_pos.2 hxsize
    hwsize
  have hruns : ∀ values : Values α, values.lookup a.data = some xs →
      values.lookup a.parameter = some ws → g.runOperator op values = .ok ys := by
    intro values hdata hparameter
    exact (hatt.run_deconvolution_eq_ok ha hkind hdata hparameter).2
      ⟨xv, wv, yv, hxv, hwv, hyv, hys⟩
  refine ⟨y, xv, wv, yv, ys, tensor_eq_ok.2 hatt.result, hxv, hwv, hyv, hmatches, hruns, ?_, ?_, ?_⟩
  · intro host final hrun hdata hparameter
    rw [Values.get_eq_ok] at hdata hparameter ⊢
    obtain ⟨_, _, ys', -, -, hys', -, h⟩ := hg.exists_run hat ha hatt hrun
    cases (hruns final hdata hparameter).symm.trans h
    exact hys'
  · exact (Deconvolution.elements_eq_ok.1 hys).1
  · intro n c2 h2 w2 hn hc2 hh2 hw2
    have hcoord := View.imageCoord_lt hmatches.result_axes hn hc2 hh2 hw2
    obtain ⟨total, htotal, h⟩ := Deconvolution.getElem?_elements hmatches.result_axes hys hcoord
    simp only [View.imageCoord] at h
    rw [Deconvolution.accumulate_taps hmatches hp hxsize hwsize (hmatches.batch ▸ hn)
      (hmatches.channel ▸ hc2)] at h
    cases h
    exact htotal

end

/-- A deconvolution by a column of three, with a stride of two and the first row cut off. -/
def upsamplingWindow : Deconvolution := ⟨⟨3, 1⟩, ⟨2, 1⟩, ⟨1, 0⟩, by decide, by decide⟩

/-- A column of two elements, upsampled. Data and weights have different orders. -/
def upsampling : Graph :=
  empty.replay [.addTensor .input "x" .nhwc [.value 1, .value 2, .value 1, .value 1],
    .addTensor .weight "w" .nchw [.value 1, .value 1, .value 3, .value 1],
    .addOperator none (.deconvolution upsamplingWindow), .apply 0 [0, 1]]

/-- The element in the middle is reached from both rows: from the first by the last weight and from
the second by the first weight. -/
theorem deconvolution_scatters_upsampling :
    ∃ final ys, upsampling.execute (α := ℚ) ⟨[("x", #[1 / 2, 2])], [("w", #[3, 5, 7])]⟩ =
        .ok final ∧ final.get 2 = .ok ys ∧ ys[1]? = some (1 / 2 * 7 + 2 * 3) := by
  obtain ⟨final, hfinal, hdata, hweights⟩ : ∃ final,
      upsampling.execute (α := ℚ) ⟨[("x", #[1 / 2, 2])], [("w", #[3, 5, 7])]⟩ = .ok final ∧
        final.get 0 = .ok #[1 / 2, 2] ∧ final.get 1 = .ok #[3, 5, 7] :=
    ⟨[(2, #[5 / 2, 19 / 2, 10]), (0, #[1 / 2, 2]), (1, #[3, 5, 7])], by decide +kernel, rfl, rfl⟩
  have hsigned : upsamplingWindow.Signed := by
    constructor <;> simp [upsamplingWindow]
  obtain ⟨x, hx, hxv⟩ : ∃ x, upsampling.tensor 0 = .ok x ∧
      x.view upsampling.symbols = .ok ⟨.nhwc, [1, 2, 1, 1], rfl⟩ := ⟨_, rfl, by decide +kernel⟩
  obtain ⟨w, hw, hwv⟩ : ∃ w, upsampling.tensor 1 = .ok w ∧
      w.view upsampling.symbols = .ok ⟨.nchw, [1, 1, 3, 1], rfl⟩ := ⟨_, rfl, by decide +kernel⟩
  obtain ⟨y, hy, hyv⟩ : ∃ y, upsampling.tensor 2 = .ok y ∧
      y.view upsampling.symbols = .ok ⟨.nhwc, [1, 3, 1, 1], rfl⟩ := ⟨_, rfl, by decide +kernel⟩
  have hxs : upsampling.Fits x (#[1 / 2, 2] : Array ℚ) := ⟨_, hxv, rfl⟩
  have hws : upsampling.Fits w (#[3, 5, 7] : Array ℚ) := ⟨_, hwv, rfl⟩
  obtain ⟨y', xv, wv, yv, ys, hy', hxv', hwv', hyv', -, -, hresult, -, hsum⟩ :=
    Reachable.deconvolution_scatters (g := upsampling) (i := 0) ⟨_, rfl⟩ rfl rfl rfl hsigned hx hw
      hxs hws
  cases hy.symm.trans hy'
  cases hxv.symm.trans hxv'
  cases hwv.symm.trans hwv'
  cases hyv.symm.trans hyv'
  have hmiddle := hsum 0 0 1 0 (by decide) (by decide) (by decide) (by decide)
  refine ⟨final, ys, hfinal, hresult _ final hfinal hdata hweights, hmiddle.trans ?_⟩
  decide +kernel

end Graph

end TensorLowering
