import TensorLowering.Tensor.Basic

/-!
# Memory layouts

A `Layout` gives every tensor a region: a space, an offset and a size in bytes. Offsets and sizes
are extents, because they may depend on symbols that are bound later; a region whose ends are both
literal has a byte range (`Allocation.byteRange?`).
-/

namespace TensorLowering

/-- The bytes of one element. -/
def elementBytes : Int64 := 4

/-- The region of a tensor. -/
structure Allocation where
  tensor : TensorId
  name : String
  space : Space
  offset : Extent
  size : Extent
  deriving DecidableEq, Repr

namespace Allocation

/-- Whether both ends of the region are known. -/
def isResolved (a : Allocation) : Bool := a.offset.asValue.isSome && a.size.asValue.isSome

/-- The half-open byte range, when both ends are known. -/
def byteRange? (a : Allocation) : Option (Int × Int) :=
  match a.offset.asValue, a.size.asValue with
  | some offset, some size => some (offset.toInt, offset.toInt + size.toInt)
  | _, _ => none

end Allocation

/-- The regions of all tensors, by handle, and the sizes of the two spaces. -/
structure Layout where
  allocations : List Allocation
  staticSize : Extent
  dynamicSize : Extent
  alignment : UInt64
  deriving DecidableEq, Repr

namespace Layout

/-- The region of a tensor. -/
def get (l : Layout) (id : TensorId) : Lowering Allocation :=
  match l.allocations.find? (·.tensor == id) with
  | some a => .ok a
  | none => .error (.notAllocated id)

/-- The size of a space. -/
def totalSize (l : Layout) : Space → Extent
  | .static => l.staticSize
  | .dynamic => l.dynamicSize

/-- The regions whose offset or size depends on an unbound symbol. -/
def unresolved (l : Layout) : List Allocation := l.allocations.filter (!·.isResolved)

end Layout

/-- The end of a stretch of bytes, which must be addressable by a word. -/
def addBytes (space : Space) (used requested : Int) : Lowering Int :=
  if FitsWord (used + requested) then .ok (used + requested)
  else .error (.unsupported .memoryLayout (.bufferOverflow space used requested))

theorem addBytes_eq_ok_iff {space : Space} {a b c : Int} :
    addBytes space a b = .ok c ↔ FitsWord (a + b) ∧ c = a + b := by
  unfold addBytes
  split
  · simp_all [eq_comm]
  · simp_all

end TensorLowering
