import TensorLowering.Layout.Basic
import TensorLowering.Liveness

/-!
# Packing the arena

Intermediate tensors share one arena. They are placed one after the other, those that start
earlier first, of these the larger, of these the lower handle; each takes the lowest offset at
which it meets no tensor placed before it that is live at the same time (`Arena.place`). Tensors
that are never live together may share bytes.
-/

namespace TensorLowering

/-- A tensor to be packed. -/
structure Parcel where
  tensor : TensorId
  size : Int
  live : LiveRange
  deriving DecidableEq, Repr

/-- A packed tensor. -/
structure Placement where
  parcel : Parcel
  offset : Int
  deriving DecidableEq, Repr

/-- The packed tensors, latest first, and the end of the last byte in use. -/
structure Arena where
  placements : List Placement
  size : Int
  deriving DecidableEq, Repr

/-- The end of a packed tensor. -/
def Placement.stop (p : Placement) : Int := p.offset + p.parcel.size

namespace Parcel

/-- Whether a parcel is placed before another: by first step, then larger size, then handle. -/
def precedes (a b : Parcel) : Bool :=
  if a.live.first ≠ b.live.first then a.live.first < b.live.first
  else if a.size ≠ b.size then b.size < a.size
  else a.tensor ≤ b.tensor

end Parcel

/-- The order of byte ranges: by start, then by end. -/
def rangeBefore (a b : Int × Int) : Bool :=
  if a.1 ≠ b.1 then a.1 < b.1 else a.2 ≤ b.2

/-- The lowest offset not below `candidate` at which `size` bytes fit between busy ranges, which
come in order. -/
def lowestFit (size : Int) : List (Int × Int) → Int → Lowering Int
  | [], candidate => pure candidate
  | (start, stop) :: busy, candidate => do
    let reach ← addBytes .dynamic candidate size
    if reach ≤ start then pure candidate else lowestFit size busy (max candidate stop)

namespace Arena

/-- The arena without tensors. -/
def empty : Arena := ⟨[], 0⟩

/-- The byte ranges of packed tensors that are live together with a parcel, in order. -/
def busy (a : Arena) (parcel : Parcel) : List (Int × Int) :=
  ((a.placements.filter fun p => p.parcel.live.overlaps parcel.live).map
    fun p => (p.offset, p.stop)).mergeSort rangeBefore

/-- Packs one more tensor at the lowest offset that is free while it is live. -/
def place (a : Arena) (parcel : Parcel) : Lowering Arena := do
  let offset ← lowestFit parcel.size (a.busy parcel) 0
  let stop ← addBytes .dynamic offset parcel.size
  pure ⟨⟨parcel, offset⟩ :: a.placements, max a.size stop⟩

/-- Packs a list of tensors. -/
def pack (parcels : List Parcel) : Lowering Arena :=
  (parcels.mergeSort Parcel.precedes).foldlM place empty

/-- The offset of a packed tensor. -/
def offset? (a : Arena) (id : TensorId) : Option Int :=
  (a.placements.find? (·.parcel.tensor == id)).map Placement.offset

end Arena

end TensorLowering
