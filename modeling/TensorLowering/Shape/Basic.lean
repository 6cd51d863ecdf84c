import TensorLowering.Order.Literal

/-!
# Shapes

A `Shape` gives every axis of an order its extent: `extents[i]` belongs to `order.axes[i]`, and the
two lists have one length by the type. Extents and strides are looked up by axis. Relabelling a
shape permutes the pairs of axis and extent; no data moves (`Shape.relabel`).
-/

namespace TensorLowering

/-- An order together with one extent for each of its axes. -/
structure Shape where
  order : Order
  extents : List Extent
  length_extents : extents.length = order.rank
  deriving DecidableEq, Repr

namespace Shape

/-- The shape of the given extents, which must be as many as the order has axes. -/
def ofExtents (subject : Subject) (order : Order) (extents : List Extent) : Lowering Shape :=
  if h : extents.length = order.rank then .ok ⟨order, extents, h⟩
  else .error (.shapeMismatch subject (.rankMismatch extents.length order))

/-- The axes with their extents, outermost first. -/
def dimensions (s : Shape) : List (Axis × Extent) := s.order.axes.zip s.extents

/-- The extent along an axis. -/
def extent (s : Shape) (a : Axis) : Lowering Extent :=
  match s.dimensions.lookup a with
  | some e => .ok e
  | none => .error (.axisNotFound a s.order)

/-- The number of elements. -/
def count (s : Shape) : Extent := Extent.product s.extents

/-- The distance in elements between neighbours along an axis: the product of the extents further
in. -/
def stride (s : Shape) (a : Axis) : Lowering Extent := do
  let i ← s.order.position a
  pure (Extent.product (s.extents.drop (i + 1)))

/-! ## Relabelling -/

/-- The same pairs of axis and extent in another order, which must hold the same axes. -/
def relabel (s : Shape) (subject : Subject) (target : Order) : Lowering Shape :=
  if s.order.sameAxes target then
    match h : target.axes.mapM s.extent with
    | .ok extents => .ok ⟨target, extents, Lowering.length_of_mapM h⟩
    | .error e => .error e
  else .error (.shapeMismatch subject (.axisSetsDiffer s.order target))

theorem order_of_relabel {s r : Shape} {subject : Subject} {target : Order}
    (h : s.relabel subject target = .ok r) : r.order = target := by
  unfold relabel at h
  split at h
  · split at h
    · cases h
      rfl
    · cases h
  · cases h

end Shape

end TensorLowering
