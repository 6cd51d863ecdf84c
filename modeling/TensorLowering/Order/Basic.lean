import TensorLowering.Axis

/-!
# Axis orders

An `Order` is the physical dimension layout of a tensor: a sequence of distinct axes. Two orders
are equal when their sequences are; `Order.sameAxes` compares the sets only. Distinctness is part
of the type, so every axis of an order has one position (`Order.index?`).
-/

namespace TensorLowering

/-- A sequence of distinct axes, outermost first. -/
structure Order where
  axes : List Axis
  nodup : axes.Nodup
  deriving DecidableEq, Repr

namespace Order

/-! ## The usual orders -/

/-- Channel only. -/
def c : Order := ⟨[.c], by decide⟩

/-- Batch and channel. -/
def nc : Order := ⟨[.n, .c], by decide⟩

/-- Channel and batch. -/
def cn : Order := ⟨[.c, .n], by decide⟩

/-- Images with the channel innermost. -/
def nhwc : Order := ⟨[.n, .h, .w, .c], by decide⟩

/-- Images with the channel around the pixels. -/
def nchw : Order := ⟨[.n, .c, .h, .w], by decide⟩

/-- Images with the pixels outermost and the channel innermost. -/
def hwnc : Order := ⟨[.h, .w, .n, .c], by decide⟩

/-- Images with the channel outermost. -/
def cnhw : Order := ⟨[.c, .n, .h, .w], by decide⟩

/-- Images with the batch innermost. -/
def chwn : Order := ⟨[.c, .h, .w, .n], by decide⟩

/-- Sequences with the channel innermost. -/
def ntc : Order := ⟨[.n, .t, .c], by decide⟩

/-! ## Reading an order -/

/-- The axis letters, in sequence. -/
def text (o : Order) : String := String.ofList (o.axes.map Axis.letter)

/-- The axis letters, separated as in a set. -/
def axisSet (o : Order) : String := ", ".intercalate (o.axes.map Axis.text)

/-- The number of axes. -/
def rank (o : Order) : Nat := o.axes.length

/-- Whether an axis is among those of the order. -/
def contains (o : Order) (a : Axis) : Bool := o.axes.contains a

/-- Whether two orders hold the same set of axes. Axes are distinct, so equal lengths and one
inclusion are enough. -/
def sameAxes (o p : Order) : Bool := o.rank == p.rank && o.axes.all p.contains

/-- The position of an axis, if the order has it. -/
def index? (o : Order) (a : Axis) : Option Nat := o.axes.idxOf? a

theorem contains_iff {o : Order} {a : Axis} : o.contains a = true ↔ a ∈ o.axes := by
  simp [contains]

end Order

end TensorLowering
