import TensorLowering.Proofs.Execution.Access
import TensorLowering.Proofs.Execution.View
import TensorLowering.Proofs.Transposition.Graph

/-!
# Arrays in other axis orders

The views of transposed shapes are transposed (`Tensor.exists_view_of_transposes`). Two arrays hold
the same tensor when they have the same element at all coordinates, each at the flat index that its
own view gives them (`View.SameElements`). A scaling and a deconvolution find their elements by
coordinates, and add products in an order that the coordinates fix; so on arrays that hold the same
operands they compute arrays that hold the same result (`AxiswiseScale.exists_elements_of_transposes`,
`Deconvolution.exists_elements_of_transposes`). No law of the arithmetic of elements is used.
-/

namespace TensorLowering

/-! ## Views -/

/-- The views hold the same axes, in whatever orders, with the same extents. -/
structure View.Transposes (v w : View) : Prop where
  axes : v.order.axes.Perm w.order.axes
  extent : ∀ axis ∈ v.order.axes, w.extent axis = v.extent axis

namespace View

variable {v w : View} {coord : Axis → Nat}

theorem Transposes.symm (h : v.Transposes w) : w.Transposes v :=
  ⟨h.axes.symm, fun axis haxis => (h.extent axis (h.axes.mem_iff.2 haxis)).symm⟩

/-- Coordinates are within the extents of both views or of none. -/
theorem Transposes.within (h : v.Transposes w) (hcoord : ∀ axis ∈ v.order.axes,
    coord axis < v.extent axis) : ∀ axis ∈ w.order.axes, coord axis < w.extent axis := by
  intro axis haxis
  have haxis := h.axes.mem_iff.2 haxis
  rw [h.extent axis haxis]
  exact hcoord axis haxis

/-- The order of the extents does not matter to their product. -/
theorem span_perm {extents others : List Nat} (h : extents.Perm others) :
    span extents = span others := by
  induction h with
  | nil => rfl
  | cons e _ ih => rw [span_cons, span_cons, ih]
  | swap e e' rest => exact Nat.mul_left_comm ..
  | trans _ _ ih ih' => exact ih.trans ih'

theorem Transposes.size (h : v.Transposes w) : w.size = v.size := by
  have hextents : v.order.axes.map w.extent = v.order.axes.map v.extent :=
    List.map_congr_left h.extent
  rw [View.size, View.size, ← w.map_extent, ← v.map_extent, ← hextents]
  exact span_perm (h.axes.symm.map _)

end View

/-- The views of transposed shapes are transposed, and one has a view when the other has. -/
theorem Tensor.exists_view_of_transposes {x y : Tensor} {t : SymbolTable} {v : View}
    (hshape : x.shape.Transposes y.shape) (hv : x.view t = .ok v) :
    ∃ w, y.view t = .ok w ∧ v.Transposes w := by
  obtain ⟨w, hw⟩ : ∃ w, y.view t = .ok w := by
    refine exists_view fun e he => ?_
    obtain ⟨axis, he⟩ := Shape.exists_axis he
    exact ⟨_, extent_of_view hv ((hshape.extent axis e).2 he)⟩
  have hvorder := (view_eq_ok.1 hv).1
  have hworder := (view_eq_ok.1 hw).1
  refine ⟨w, hw, hvorder ▸ hworder ▸ hshape.axes, fun axis haxis => ?_⟩
  obtain ⟨e, he⟩ := Shape.exists_extent.2 (hvorder ▸ haxis)
  have he' := (hshape.extent axis e).1 he
  exact (extent_of_view hw he').unique (extent_of_view hv he)

/-! ## Arrays -/

section
variable {α : Type} {v w : View} {data others : Array α} {coord : Axis → Nat} {a : α}

/-- The arrays have the same element at all coordinates within the extents. -/
def View.SameElements (v w : View) (data others : Array α) : Prop :=
  ∀ coord : Axis → Nat, (∀ axis ∈ v.order.axes, coord axis < v.extent axis) →
    ∃ a, data[v.flatten coord]? = some a ∧ others[w.flatten coord]? = some a

namespace View.SameElements

theorem symm (h : v.SameElements w data others) (hvw : v.Transposes w) :
    w.SameElements v others data := fun coord hcoord =>
  (h coord (hvw.symm.within hcoord)).imp fun _ ⟨hdata, hothers⟩ => ⟨hothers, hdata⟩

/-- Arrays have the same elements when one is the permutation of the other that the coordinates
give. -/
theorem of_permuted (hvw : v.Transposes w) (hdata : data.size = v.size)
    (h : ∀ flat < v.size, others[w.flatten (v.coordinate flat)]? = data[flat]?) :
    v.SameElements w data others := by
  intro coord hcoord
  obtain ⟨hlt, hself⟩ := View.coordinate_flatten hcoord
  have hcoords : w.flatten (v.coordinate (v.flatten coord)) = w.flatten coord := by
    have hmap : w.order.axes.map (v.coordinate (v.flatten coord)) = w.order.axes.map coord :=
      List.map_congr_left fun axis haxis => hself axis (hvw.axes.mem_iff.2 haxis)
    exact congrArg (View.weigh · (View.strides w.extents)) hmap
  have hget : data[v.flatten coord]? = some data[v.flatten coord] := Array.getElem?_eq_getElem _
  exact ⟨_, hget, by rw [← hcoords, h _ hlt, hget]⟩

/-- What is read at some coordinates in one array is read there in the other. -/
theorem elementAt (h : v.SameElements w data others)
    (hcoord : ∀ axis ∈ v.order.axes, coord axis < v.extent axis)
    (ha : elementAt data (v.flatten coord) = .ok a) :
    TensorLowering.elementAt others (w.flatten coord) = .ok a := by
  obtain ⟨b, hdata, hothers⟩ := h coord hcoord
  obtain ⟨hlt, rfl⟩ := Array.getElem?_eq_some_iff.1 hdata
  obtain ⟨hlt', hothers⟩ := Array.getElem?_eq_some_iff.1 hothers
  rw [elementAt_of_lt hlt] at ha
  rw [elementAt_of_lt hlt', hothers, ha]

/-- A vector has one layout. -/
theorem eq_of_rank_one (h : v.SameElements w data others) (hvw : v.Transposes w)
    (hrank : v.order.rank = 1) (hdata : data.size = v.size) (hothers : others.size = w.size) :
    others = data := by
  obtain ⟨axis, haxis⟩ := List.length_eq_one_iff.1 hrank
  have haxis' : w.order.axes = [axis] := List.perm_singleton.1 (haxis ▸ hvw.axes.symm)
  have hflatten : ∀ {u : View}, u.order.axes = [axis] → ∀ i, u.flatten (fun _ => i) = i := by
    intro u hu i
    have hlength := u.length_extents
    rw [Order.rank, hu, List.length_singleton, List.length_eq_one_iff] at hlength
    obtain ⟨extent, hextent⟩ := hlength
    simp [View.flatten, hu, hextent, View.strides, View.weigh, View.span]
  have hsize : v.size = v.extent axis := View.size_eq_extent hrank (by simp [haxis])
  refine Array.ext (by rw [hothers, hvw.size, hdata]) fun i hi hi' => ?_
  have hwithin : ∀ a ∈ v.order.axes, i < v.extent a := by
    rw [haxis, List.forall_mem_singleton, ← hsize, ← hdata]
    exact hi'
  obtain ⟨a, ha, ha'⟩ := h (fun _ => i) hwithin
  rw [hflatten haxis] at ha
  rw [hflatten haxis'] at ha'
  rw [(Array.getElem?_eq_some_iff.1 ha).2, (Array.getElem?_eq_some_iff.1 ha').2]

end View.SameElements

/-! ## Scaling -/

/-- A scaling computes the same elements in another order. -/
theorem AxiswiseScale.exists_elements_of_transposes [Mul α] {axis : Axis} {scale ys : Array α}
    (hvw : v.Transposes w) (haxis : axis ∈ v.order.axes) (hothers : others.size = w.size)
    (hscale : scale.size = v.extent axis) (hsame : v.SameElements w data others)
    (h : elements v axis data scale = .ok ys) :
    ∃ ys', elements w axis others scale = .ok ys' ∧ v.SameElements w ys ys' := by
  have haxis' := hvw.axes.mem_iff.1 haxis
  obtain ⟨ys', hys'⟩ := exists_elements hothers haxis' (hscale.trans (hvw.extent axis haxis).symm)
  refine ⟨ys', hys', fun coord hcoord => ?_⟩
  obtain ⟨hlt, hself⟩ := View.coordinate_flatten hcoord
  obtain ⟨hlt', hself'⟩ := View.coordinate_flatten (hvw.within hcoord)
  obtain ⟨a, ha, ha'⟩ := hsame coord hcoord
  obtain ⟨b, hb⟩ : ∃ b, elementAt scale (coord axis) = .ok b :=
    ⟨_, elementAt_of_lt (hscale ▸ hcoord axis haxis)⟩
  refine ⟨a * b, (getElem?_elements h).2 ?_, (getElem?_elements hys').2 ?_⟩
  · exact ⟨a, coord axis, b, ha, by rw [coordinateIn_of_lt hlt, hself axis haxis], hb, rfl⟩
  · exact ⟨a, coord axis, b, ha', by rw [coordinateIn_of_lt hlt', hself' axis haxis'], hb, rfl⟩

end

/-! ## Deconvolution -/

namespace Deconvolution

variable {α : Type} [Add α] [Mul α] {p : Deconvolution} {x x' w w' y y' : View}
  {data others weights kernels : Array α} {n c2 h2 w2 : Nat} {sum total : α}

/-- Sums over pairs that read the same elements are the same. -/
theorem accumulate_of_forall₂ {taps taps' : List (Int × Int)}
    (h : List.Forall₂ (fun tap tap' =>
      (∀ a, elementAt data tap.1 = .ok a → elementAt others tap'.1 = .ok a) ∧
        ∀ b, elementAt weights tap.2 = .ok b → elementAt kernels tap'.2 = .ok b) taps taps')
    (hsum : accumulate data weights sum taps = .ok total) :
    accumulate others kernels sum taps' = .ok total := by
  induction h generalizing sum with
  | nil => exact hsum
  | @cons tap tap' taps taps' hreads _ ih =>
    obtain ⟨a, ha, hsum⟩ := Computation.bind_eq_ok.1 hsum
    obtain ⟨b, hb, hsum⟩ := Computation.bind_eq_ok.1 hsum
    rw [accumulate, hreads.1 a ha, Computation.ok_bind, hreads.2 b hb, Computation.ok_bind]
    exact ih hsum

/-- An element of the result is the same sum on data and weights in other orders: window and
channels are visited in one sequence, whatever the orders. -/
theorem accumulate_of_transposes (hm : p.Matches x w y) (hx : x.Transposes x')
    (hw : w.Transposes w') (hdata : x.SameElements x' data others)
    (hweights : w.SameElements w' weights kernels) (hn : n < x.extent .n) (hc2 : c2 < w.extent .n)
    (hsum : accumulate data weights sum (p.taps x w n c2 h2 w2) = .ok total) :
    accumulate others kernels sum (p.taps x' w' n c2 h2 w2) = .ok total := by
  have hextent : ∀ axis ∈ [Axis.n, .c, .h, .w], x'.extent axis = x.extent axis :=
    fun axis haxis => hx.extent axis (hm.data_axes.mem_iff.2 haxis)
  refine accumulate_of_forall₂ ?_ hsum
  rw [taps, taps, hextent .h (by decide), hextent .w (by decide), hextent .c (by decide)]
  refine Computation.forall₂_flatMap fun ⟨kh, h1⟩ hkh =>
    Computation.forall₂_flatMap fun ⟨kw, w1⟩ hkw => ?_
  rw [List.forall₂_map_left_iff, List.forall₂_map_right_iff, List.forall₂_same]
  intro c1 hc1
  obtain ⟨hkh, hh1⟩ := mem_sources_iff.1 hkh
  obtain ⟨hkw, hw1⟩ := mem_sources_iff.1 hkw
  have hc1 := List.mem_range.1 hc1
  refine ⟨fun a ha => ?_, fun b hb => ?_⟩
  · by_cases hsign : h1 < 0 ∨ w1 < 0
    · -- A coordinate below zero is outside every array.
      rw [dataIndex, if_pos hsign] at ha
      cases ha
    · obtain ⟨row, rfl⟩ := Int.eq_ofNat_of_zero_le (a := h1) (by omega)
      obtain ⟨column, rfl⟩ := Int.eq_ofNat_of_zero_le (a := w1) (by omega)
      have hrow := Int.ofNat_lt.1 (sourceIndex?_lt hh1)
      have hcolumn := Int.ofNat_lt.1 (sourceIndex?_lt hw1)
      rw [dataIndex_eq_flatten hm.data_axes] at ha
      rw [dataIndex_eq_flatten (hx.axes.symm.trans hm.data_axes)]
      exact hdata.elementAt (View.imageCoord_lt hm.data_axes hn hc1 hrow hcolumn) ha
  · rw [weightIndex_eq_flatten hm.weight_axes] at hb
    rw [weightIndex_eq_flatten (hw.axes.symm.trans hm.weight_axes)]
    refine hweights.elementAt (View.imageCoord_lt hm.weight_axes hc2 ?_ ?_ ?_) hb
    · rwa [hm.dataChannel]
    · rwa [hm.height]
    · rwa [hm.width]

/-- A deconvolution computes the same elements in other orders. -/
theorem exists_elements_of_transposes [Zero α] {ys : Array α} (hm : p.Matches x w y)
    (hx : x.Transposes x') (hw : w.Transposes w') (hy : y.Transposes y')
    (hdata : x.SameElements x' data others) (hweights : w.SameElements w' weights kernels)
    (h : p.elements x w y data weights = .ok ys) :
    ∃ ys', p.elements x' w' y' others kernels = .ok ys' ∧ y.SameElements y' ys ys' := by
  have hmem : ∀ axis ∈ [Axis.n, .c, .h, .w], axis ∈ y.order.axes :=
    fun axis => hm.result_axes.mem_iff.2
  have htotal : ∀ coord : Axis → Nat, (∀ axis ∈ y.order.axes, coord axis < y.extent axis) →
      ∃ total, ys[y.flatten coord]? = some total ∧ accumulate others kernels 0
        (p.taps x' w' (coord .n) (coord .c) (coord .h) (coord .w)) = .ok total := by
    intro coord hcoord
    obtain ⟨total, hget, hsum⟩ := getElem?_elements hm.result_axes h hcoord
    have hn := hm.batch ▸ hcoord .n (hmem .n (by decide))
    have hc := hm.channel ▸ hcoord .c (hmem .c (by decide))
    exact ⟨total, hget, accumulate_of_transposes hm hx hw hdata hweights hn hc hsum⟩
  obtain ⟨ys', hys'⟩ : ∃ ys', p.elements x' w' y' others kernels = .ok ys' := by
    refine exists_elements_iff.2 fun flat hflat => ?_
    obtain ⟨total, -, hsum⟩ := htotal (y'.coordinate flat) <|
      hy.symm.within fun axis haxis => View.coordinate_lt hflat haxis
    exact ⟨total, hsum⟩
  refine ⟨ys', hys', fun coord hcoord => ?_⟩
  obtain ⟨total, hget, hsum⟩ := htotal coord hcoord
  obtain ⟨total', hget', hsum'⟩ :=
    getElem?_elements (hy.axes.symm.trans hm.result_axes) hys' (hy.within hcoord)
  cases hsum.symm.trans hsum'
  exact ⟨total, hget, hget'⟩

end Deconvolution

end TensorLowering
