import Mathlib.Algebra.Ring.Nat
import Mathlib.Data.Set.Function
import TensorLowering.Proofs.Execution.Access

/-!
# Elements by coordinates

The elements of a view are addressed in two ways, by their flat index and by their coordinates. An
axis that the view does not have counts as an axis of extent one, so the coordinates of elements are
the functions on all axes that are below the extents (`View.box`). The flat index is the sum over
the axes of the view of coordinate times stride (`View.index`). The two ways correspond one to one,
for every order of the axes and also where an extent is zero and there are no elements
(`View.coordinate_bijOn`).
-/

namespace TensorLowering

namespace View

variable {v : View} {axis : Axis} {flat : Nat} {coord : Axis → Nat}

/-! ## Axes that a view does not have -/

theorem dimension?_eq_none (h : axis ∉ v.order.axes) : v.dimension? axis = none := by
  refine List.lookup_eq_none_iff.2 fun entry hentry => ?_
  have hne : axis ≠ entry.1 := fun heq => h (heq ▸ (List.of_mem_zip hentry).1)
  simpa using hne

theorem extent_eq_one (h : axis ∉ v.order.axes) : v.extent axis = 1 := by
  rw [extent, dimension?_eq_none h]

theorem stride_eq_zero (h : axis ∉ v.order.axes) : v.stride axis = 0 := by
  rw [stride, dimension?_eq_none h]

theorem coordinate_eq_zero (h : axis ∉ v.order.axes) : v.coordinate flat axis = 0 := by
  rw [coordinate, dimension?_eq_none h]

/-! ## Flat indices -/

/-- The coordinates within the extents, along all axes. -/
def box (v : View) : Set (Axis → Nat) := {coord | ∀ axis, coord axis < v.extent axis}

/-- The flat index at some coordinates: the sum over the axes of coordinate times stride. -/
def index (v : View) (coord : Axis → Nat) : Nat :=
  (v.order.axes.map fun axis => coord axis * v.stride axis).sum

theorem weigh_map (f g : Axis → Nat) (axes : List Axis) :
    weigh (axes.map f) (axes.map g) = (axes.map fun axis => f axis * g axis).sum := by
  induction axes with
  | nil => rfl
  | cons axis rest ih =>
    rw [List.map_cons, List.map_cons, List.map_cons, List.sum_cons, weigh_cons, ih]

theorem index_eq_flatten (v : View) (coord : Axis → Nat) : v.index coord = v.flatten coord := by
  rw [flatten, ← map_stride, weigh_map, index]

theorem mapsTo_coordinate (v : View) :
    Set.MapsTo v.coordinate {flat | flat < v.size} v.box := by
  intro flat hflat axis
  by_cases haxis : axis ∈ v.order.axes
  · exact coordinate_lt hflat haxis
  · rw [coordinate_eq_zero haxis, extent_eq_one haxis]
    exact Nat.zero_lt_one

/-- The coordinates along other axes do not matter to the flat index: they have no stride. -/
theorem index_lt (h : ∀ axis ∈ v.order.axes, coord axis < v.extent axis) :
    v.index coord < v.size := by
  rw [index_eq_flatten]
  exact (coordinate_flatten h).1

theorem mapsTo_index (v : View) : Set.MapsTo v.index v.box {flat | flat < v.size} :=
  fun _ hcoord => index_lt fun axis _ => hcoord axis

/-- The coordinates of the flat index at some coordinates are those coordinates, and the flat index
at the coordinates of an element is that of the element. -/
theorem invOn_index (v : View) :
    Set.InvOn v.index v.coordinate {flat | flat < v.size} v.box := by
  refine ⟨fun flat hflat => ?_, fun coord hcoord => funext fun axis => ?_⟩
  · rw [index_eq_flatten]
    exact flatten_coordinate hflat
  · by_cases haxis : axis ∈ v.order.axes
    · rw [index_eq_flatten]
      exact (coordinate_flatten fun axis _ => hcoord axis).2 axis haxis
    · -- Below an extent of one there is the coordinate zero only.
      have hzero := hcoord axis
      rw [extent_eq_one haxis, Nat.lt_one_iff] at hzero
      rw [coordinate_eq_zero haxis, hzero]

/-- The coordinates of the elements of a view correspond one to one to the flat indices below its
size, and the flat index is the sum of coordinate times stride. The coordinates are those within the
extents of the view, and zero along all other axes, which have extent one and no stride; a sum of
coordinates within the extents is a flat index whatever the coordinates along other axes are. The
coordinates of an element are found without a division by zero. -/
theorem coordinate_bijOn (v : View) :
    Set.BijOn v.coordinate {flat | flat < v.size} v.box ∧
      Set.InvOn v.index v.coordinate {flat | flat < v.size} v.box ∧
      (∀ coord, (∀ axis ∈ v.order.axes, coord axis < v.extent axis) → v.index coord < v.size) ∧
      (∀ flat < v.size, ∀ axis, coordinateIn v flat axis = .ok (v.coordinate flat axis)) ∧
      v.order.axes.map v.extent = v.extents ∧
      ∀ axis, axis ∉ v.order.axes →
        v.extent axis = 1 ∧ v.stride axis = 0 ∧ ∀ flat, v.coordinate flat axis = 0 := by
  refine ⟨v.invOn_index.bijOn v.mapsTo_coordinate v.mapsTo_index, v.invOn_index,
    fun coord => index_lt, fun flat hflat axis => coordinateIn_of_lt hflat, v.map_extent,
    fun axis haxis => ?_⟩
  exact ⟨extent_eq_one haxis, stride_eq_zero haxis, fun _ => coordinate_eq_zero haxis⟩

/-- Two rows of three pixels with four channels, row by row. -/
def rowsFirst : View := ⟨.hwnc, [2, 3, 1, 4], rfl⟩

/-- The last element is the fourth channel of the last pixel, and a row has no time steps. -/
theorem coordinate_bijOn_rowsFirst :
    (23 < rowsFirst.size ∧ rowsFirst.coordinate 23 ∈ rowsFirst.box ∧
      rowsFirst.index (rowsFirst.coordinate 23) = 23 ∧ coordinateIn rowsFirst 23 .w = .ok 2) ∧
      rowsFirst.index (imageCoord (0, 1, 2, 3)) < rowsFirst.size ∧
      rowsFirst.coordinate (rowsFirst.index (imageCoord (0, 1, 2, 3))) = imageCoord (0, 1, 2, 3) ∧
      .t ∉ rowsFirst.order.axes ∧ rowsFirst.extent .t = 1 ∧ rowsFirst.stride .t = 0 := by
  obtain ⟨hbij, hinv, hlt, hcomputed, -, habsent⟩ := coordinate_bijOn rowsFirst
  have hlast : 23 < rowsFirst.size := by decide
  have htime : .t ∉ rowsFirst.order.axes := by decide
  have hbox : imageCoord (0, 1, 2, 3) ∈ rowsFirst.box := fun axis => by cases axis <;> decide
  obtain ⟨hextent, hstride, -⟩ := habsent .t htime
  exact ⟨⟨hlast, hbij.mapsTo hlast, hinv.1 hlast, hcomputed 23 hlast .w⟩,
    hlt _ fun axis _ => hbox axis, hinv.2 hbox, htime, hextent, hstride⟩

end View

end TensorLowering
