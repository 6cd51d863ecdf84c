import TensorLowering.Execution.AxiswiseScale
import TensorLowering.Execution.Deconvolution
import TensorLowering.Proofs.Execution.Coordinates

/-!
# Accesses stay in bounds

The elements that an operator reads are those at coordinates within the extents of its operands, so
they are there: a scaling reads the scale at a coordinate of the data
(`AxiswiseScale.exists_elements`), and the index pairs of a deconvolution lie within data and
weights when their extents agree (`Deconvolution.Matches`, `Deconvolution.taps_lt`,
`Deconvolution.exists_elements`). Where an extent is zero there is no element to compute, so nothing
is divided by it.
-/

namespace TensorLowering

section
variable {α : Type} {data : Array α} {v : View} {flat : Nat} {axis : Axis}

/-! ## Single accesses -/

theorem elementAt_of_lt {i : Nat} (h : i < data.size) : elementAt data i = .ok data[i] := by
  have hnonneg : ¬ (i : Int) < 0 := Int.not_lt.2 (Int.natCast_nonneg i)
  rw [elementAt, if_neg hnonneg, Int.toNat_natCast, Array.getElem?_eq_getElem h]

theorem coordinateIn_of_lt (h : flat < v.size) :
    coordinateIn v flat axis = .ok (v.coordinate flat axis) := by
  rw [coordinateIn, View.dividesByZero_eq_false h]
  rfl

/-! ## Scaling -/

/-- The elements of a scaled tensor are those of the data, each times the scale at its coordinate. -/
theorem AxiswiseScale.getElem?_elements [Mul α] {scale ys : Array α} {y : α}
    (h : AxiswiseScale.elements v axis data scale = .ok ys) :
    ys[flat]? = some y ↔ ∃ a i s, data[flat]? = some a ∧ coordinateIn v flat axis = .ok i ∧
      elementAt scale i = .ok s ∧ a * s = y := by
  obtain ⟨results, hresults, h⟩ := Computation.bind_eq_ok.1 h
  cases h
  have hall := Computation.mapM_eq_ok.1 hresults
  rw [List.getElem?_toArray]
  constructor
  · intro hy
    obtain ⟨⟨a, i⟩, ha, h⟩ := Computation.exists_item hall hy
    obtain ⟨c, hc, h⟩ := Computation.bind_eq_ok.1 h
    obtain ⟨s, hs, h⟩ := Computation.bind_eq_ok.1 h
    cases h
    rw [List.getElem?_zipIdx] at ha
    obtain ⟨a', ha', hentry⟩ := Option.map_eq_some_iff.1 ha
    cases hentry
    exact ⟨a, c, s, by simpa using ha', by simpa using hc, hs, rfl⟩
  · rintro ⟨a, c, s, ha, hc, hs, rfl⟩
    have hentry : data.toList.zipIdx[flat]? = some (a, flat) := by
      rw [List.getElem?_zipIdx, Array.getElem?_toList, ha, Option.map_some, Nat.zero_add]
    obtain ⟨y, hy, h⟩ := Computation.exists_result hall hentry
    dsimp only at h
    rw [hc, Computation.ok_bind, hs, Computation.ok_bind, Computation.pure_eq_ok] at h
    rw [hy, h]

/-- A scaling finds a factor for every element, if the scale is as long as the data along the
axis. -/
theorem AxiswiseScale.exists_elements [Mul α] {scale : Array α} (hdata : data.size = v.size)
    (haxis : axis ∈ v.order.axes) (hscale : scale.size = v.extent axis) :
    ∃ result, AxiswiseScale.elements v axis data scale = .ok result := by
  have helement : ∀ element ∈ data.toList.zipIdx, ∃ product, (do
      let i ← coordinateIn v element.2 axis
      let s ← elementAt scale i
      pure (element.1 * s) : Execution α) = .ok product := by
    rintro ⟨a, flat⟩ helement
    have hget : data[flat]? = some a := by
      simpa [List.mem_zipIdx_iff_getElem?] using helement
    have hflat : flat < v.size := hdata ▸ (Array.getElem?_eq_some_iff.1 hget).1
    have hcoord : v.coordinate flat axis < scale.size := hscale ▸ View.coordinate_lt hflat haxis
    refine ⟨a * scale[v.coordinate flat axis], ?_⟩
    dsimp only
    rw [coordinateIn_of_lt hflat, Computation.ok_bind, elementAt_of_lt hcoord]
    rfl
  obtain ⟨results, hresults⟩ := Computation.exists_mapM helement
  exact ⟨results.toArray, Computation.bind_eq_ok.2 ⟨results, hresults, rfl⟩⟩

end

namespace Deconvolution

/-! ## Sources -/

section
variable {window out extent tap : Nat} {stride padding : UInt64} {i : Int}

/-- The sources are the window positions that have a source coordinate, each with it. -/
theorem mem_sources_iff : (tap, i) ∈ sources window out stride padding extent ↔
    tap < window ∧ sourceIndex? out tap stride padding extent = some i := by
  simp only [sources, List.mem_filterMap, List.mem_range, Option.map_eq_some_iff]
  constructor
  · rintro ⟨_, htap, _, hi, hentry⟩
    cases hentry
    exact ⟨htap, hi⟩
  · rintro ⟨htap, hi⟩
    exact ⟨tap, htap, i, hi, rfl⟩

theorem sourceIndex?_lt (h : sourceIndex? out tap stride padding extent = some i) :
    i < extent := by
  simp only [sourceIndex?] at h
  split at h
  · cases h
  · split at h
    · next hlt =>
      cases h
      exact hlt
    · cases h

theorem sourceIndex?_nonneg (hstride : 0 < stride.toInt64.toInt)
    (h : sourceIndex? out tap stride padding extent = some i) : 0 ≤ i := by
  simp only [sourceIndex?] at h
  split at h
  · cases h
  · next hreached =>
    have hshifted := Int.not_lt.1 fun hneg => hreached (.inl hneg)
    split at h
    · cases h
      exact Int.tdiv_nonneg hshifted (Int.le_of_lt hstride)
    · cases h

/-- With a positive stride, the sources are window positions with coordinates within the extent. -/
theorem mem_sources (hstride : 0 < stride.toInt64.toInt)
    (h : (tap, i) ∈ sources window out stride padding extent) :
    tap < window ∧ ∃ coord : Nat, i = coord ∧ coord < extent := by
  obtain ⟨htap, hi⟩ := mem_sources_iff.1 h
  obtain ⟨coord, rfl⟩ := Int.eq_ofNat_of_zero_le (sourceIndex?_nonneg hstride hi)
  exact ⟨htap, coord, rfl, Int.ofNat_lt.1 (sourceIndex?_lt hi)⟩

end

/-- Visiting window positions with their source coordinates skips those that have none. -/
theorem flatMap_sources {β : Type} (window out : Nat) (stride padding : UInt64) (extent : Nat)
    (f : Nat × Int → List β) :
    (sources window out stride padding extent).flatMap f =
      (List.range window).flatMap fun tap =>
        (sourceIndex? out tap stride padding extent).elim [] fun i => f (tap, i) := by
  rw [sources, List.filterMap_eq_flatMap_toList, List.flatMap_assoc]
  refine List.flatMap_congr fun tap _ => ?_
  cases sourceIndex? out tap stride padding extent with
  | none => rfl
  | some i => simp

/-! ## Index pairs -/

/-- The views of data, weights and result belong together: all are images, in whatever order of
axes, the batch is that of the data, and the weights hold one window for each pair of channels. -/
structure Matches (p : Deconvolution) (x w y : View) : Prop where
  data_axes : x.order.axes.Perm [.n, .c, .h, .w]
  weight_axes : w.order.axes.Perm [.n, .c, .h, .w]
  result_axes : y.order.axes.Perm [.n, .c, .h, .w]
  batch : y.extent .n = x.extent .n
  channel : y.extent .c = w.extent .n
  dataChannel : w.extent .c = x.extent .c
  height : w.extent .h = p.ksize.h.toNat
  width : w.extent .w = p.ksize.w.toNat

variable {p : Deconvolution} {x w y : View} {n c2 h2 w2 : Nat}

/-- A position within the extents of an image has a flat index within its size. -/
theorem flatIndex_lt {v : View} {n c h w : Nat} (haxes : v.order.axes.Perm [.n, .c, .h, .w])
    (hn : n < v.extent .n) (hc : c < v.extent .c) (hh : h < v.extent .h) (hw : w < v.extent .w) :
    n * v.stride .n + c * v.stride .c + h * v.stride .h + w * v.stride .w < v.size := by
  have hlt := (View.coordinate_flatten (View.imageCoord_lt haxes hn hc hh hw)).1
  rwa [View.flatten_image haxes] at hlt

/-- At coordinates that are not negative, an input element has the flat index of its position. -/
theorem dataIndex_natCast (x : View) (n c1 row column : Nat) :
    dataIndex x n c1 row column = ((n * x.stride .n + c1 * x.stride .c + row * x.stride .h +
      column * x.stride .w : Nat) : Int) := by
  rw [dataIndex, if_neg (by omega)]
  push_cast
  rfl

theorem weightIndex_natCast (w : View) (c2 c1 kh kw : Nat) :
    weightIndex w c2 c1 kh kw = ((c2 * w.stride .n + c1 * w.stride .c + kh * w.stride .h +
      kw * w.stride .w : Nat) : Int) := by
  rw [weightIndex]
  push_cast
  rfl

/-- At coordinates that are not negative, an input element is read at its position. -/
theorem dataIndex_eq_flatten (hx : x.order.axes.Perm [.n, .c, .h, .w]) (n c1 row column : Nat) :
    dataIndex x n c1 row column = x.flatten (View.imageCoord (n, row, column, c1)) := by
  rw [dataIndex_natCast, View.flatten_image hx]
  rfl

theorem weightIndex_eq_flatten (hw : w.order.axes.Perm [.n, .c, .h, .w]) (c2 c1 kh kw : Nat) :
    weightIndex w c2 c1 kh kw = w.flatten (View.imageCoord (c2, kh, kw, c1)) := by
  rw [weightIndex_natCast, View.flatten_image hw]
  rfl

/-- The index pairs of an element of the result lie within data and weights. -/
theorem taps_lt (hm : p.Matches x w y) (hh : 0 < p.stride.h.toInt64.toInt)
    (hw : 0 < p.stride.w.toInt64.toInt) (hn : n < x.extent .n) (hc2 : c2 < w.extent .n) :
    ∀ tap ∈ p.taps x w n c2 h2 w2,
      ∃ i j : Nat, tap = ((i : Int), (j : Int)) ∧ i < x.size ∧ j < w.size := by
  intro tap htap
  obtain ⟨⟨kh, h1⟩, hkh, htap⟩ := List.mem_flatMap.1 htap
  obtain ⟨⟨kw, w1⟩, hkw, htap⟩ := List.mem_flatMap.1 htap
  obtain ⟨c1, hc1, rfl⟩ := List.mem_map.1 htap
  obtain ⟨hkh, row, rfl, hrow⟩ := mem_sources hh hkh
  obtain ⟨hkw, column, rfl, hcolumn⟩ := mem_sources hw hkw
  have hc1 := List.mem_range.1 hc1
  rw [dataIndex_natCast, weightIndex_natCast]
  refine ⟨_, _, rfl, flatIndex_lt hm.data_axes hn hc1 hrow hcolumn,
    flatIndex_lt hm.weight_axes hc2 ?_ ?_ ?_⟩
  · rwa [hm.dataChannel]
  · rwa [hm.height]
  · rwa [hm.width]

/-! ## Sums of products -/

section
variable {α : Type} [Add α] [Mul α] {data weights : Array α}

/-- A deconvolution computes its result element by element, each at its coordinates. -/
theorem elements_eq_ok [Zero α] {ys : Array α} :
    p.elements x w y data weights = .ok ys ↔ ys.size = y.size ∧ ∀ flat < y.size,
      ∃ total, ys[flat]? = some total ∧ accumulate data weights 0
        (p.taps x w (y.coordinate flat .n) (y.coordinate flat .c) (y.coordinate flat .h)
          (y.coordinate flat .w)) = .ok total := by
  simp only [elements, Computation.bind_eq_ok, Computation.mapM_range_eq_ok,
    Computation.pure_eq_ok]
  constructor
  · rintro ⟨results, ⟨hlength, hresults⟩, rfl⟩
    refine ⟨hlength, fun flat hflat => ?_⟩
    obtain ⟨total, htotal, n, hn, c2, hc2, h2, hh2, w2, hw2, h⟩ := hresults flat hflat
    rw [coordinateIn_of_lt hflat] at hn hc2 hh2 hw2
    cases hn
    cases hc2
    cases hh2
    cases hw2
    exact ⟨total, by simpa using htotal, h⟩
  · rintro ⟨hsize, h⟩
    refine ⟨ys.toList, ⟨hsize, fun flat hflat => ?_⟩, rfl⟩
    obtain ⟨total, htotal, h⟩ := h flat hflat
    exact ⟨total, by simpa using htotal, _, coordinateIn_of_lt hflat, _, coordinateIn_of_lt hflat,
      _, coordinateIn_of_lt hflat, _, coordinateIn_of_lt hflat, h⟩

/-- The element of a result at some coordinates is the sum over the index pairs of these
coordinates. -/
theorem getElem?_elements [Zero α] {ys : Array α} {coord : Axis → Nat}
    (haxes : y.order.axes.Perm [.n, .c, .h, .w]) (h : p.elements x w y data weights = .ok ys)
    (hcoord : ∀ axis ∈ y.order.axes, coord axis < y.extent axis) :
    ∃ total, ys[y.flatten coord]? = some total ∧ accumulate data weights 0
      (p.taps x w (coord .n) (coord .c) (coord .h) (coord .w)) = .ok total := by
  obtain ⟨hlt, hself⟩ := View.coordinate_flatten hcoord
  have hself : ∀ axis ∈ [Axis.n, .c, .h, .w], y.coordinate (y.flatten coord) axis = coord axis :=
    fun axis haxis => hself axis (haxes.mem_iff.2 haxis)
  have htotal := (elements_eq_ok.1 h).2 _ hlt
  rwa [hself .n (by decide), hself .c (by decide), hself .h (by decide),
    hself .w (by decide)] at htotal

/-- A sum of products over index pairs within both arrays is computed. -/
theorem exists_accumulate {taps : List (Int × Int)} (h : ∀ tap ∈ taps,
    ∃ i j : Nat, tap = ((i : Int), (j : Int)) ∧ i < data.size ∧ j < weights.size) (sum : α) :
    ∃ total, accumulate data weights sum taps = .ok total := by
  induction taps generalizing sum with
  | nil => exact ⟨sum, rfl⟩
  | cons tap rest ih =>
    obtain ⟨⟨i, j, rfl, hi, hj⟩, hrest⟩ := List.forall_mem_cons.1 h
    obtain ⟨total, htotal⟩ := ih hrest (sum + data[i] * weights[j])
    refine ⟨total, ?_⟩
    rw [accumulate, elementAt_of_lt hi, Computation.ok_bind, elementAt_of_lt hj,
      Computation.ok_bind, htotal]

/-- A deconvolution is computed when all its elements are. -/
theorem exists_elements_iff [Zero α] :
    (∃ ys, p.elements x w y data weights = .ok ys) ↔ ∀ flat < y.size,
      ∃ total, accumulate data weights 0 (p.taps x w (y.coordinate flat .n)
        (y.coordinate flat .c) (y.coordinate flat .h) (y.coordinate flat .w)) = .ok total := by
  constructor
  · rintro ⟨ys, hys⟩ flat hflat
    obtain ⟨total, -, htotal⟩ := (elements_eq_ok.1 hys).2 flat hflat
    exact ⟨total, htotal⟩
  · intro h
    have helement : ∀ flat ∈ List.range y.size, ∃ total, (do
        let n ← coordinateIn y flat .n
        let c2 ← coordinateIn y flat .c
        let h2 ← coordinateIn y flat .h
        let w2 ← coordinateIn y flat .w
        accumulate data weights 0 (p.taps x w n c2 h2 w2) : Execution α) = .ok total := by
      intro flat hflat
      have hflat := List.mem_range.1 hflat
      simp only [coordinateIn_of_lt hflat, Computation.ok_bind]
      exact h flat hflat
    obtain ⟨results, hresults⟩ := Computation.exists_mapM helement
    exact ⟨results.toArray, Computation.bind_eq_ok.2 ⟨results, hresults, rfl⟩⟩

/-- A deconvolution computes every element of its result, if the views belong together and the
arrays have their sizes. -/
theorem exists_elements [Zero α] (hm : p.Matches x w y) (hh : 0 < p.stride.h.toInt64.toInt)
    (hw : 0 < p.stride.w.toInt64.toInt) (hdata : data.size = x.size)
    (hweights : weights.size = w.size) :
    ∃ result, p.elements x w y data weights = .ok result := by
  refine exists_elements_iff.2 fun flat hflat => ?_
  have hn : y.coordinate flat .n < x.extent .n :=
    hm.batch ▸ View.coordinate_lt hflat (hm.result_axes.mem_iff.2 (by decide))
  have hc : y.coordinate flat .c < w.extent .n :=
    hm.channel ▸ View.coordinate_lt hflat (hm.result_axes.mem_iff.2 (by decide))
  refine exists_accumulate (fun tap htap => ?_) 0
  rw [hdata, hweights]
  exact taps_lt hm hh hw hn hc tap htap

end

end Deconvolution

end TensorLowering
