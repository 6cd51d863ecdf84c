import TensorLowering.Config.Basic
import TensorLowering.Graph.Basic
import TensorLowering.Layout.Arena

/-!
# Laying out memory

Weights are stacked in the static buffer. In the dynamic buffer, inputs and outputs of known size
are stacked first, then comes the arena of the intermediates of known size, and at the end every
tensor of symbolic size at a symbolic offset. All sizes are multiples of the alignment, so all
offsets are too.
-/

namespace TensorLowering

/-- A tensor with its size in bytes. -/
abbrev SizedTensor := Tensor × Extent

/-! ## Sizes -/

/-- The size of a tensor in bytes, rounded up to the alignment. A count or a size that is known
must be representable, and a count must not be negative. -/
def Graph.byteSize (g : Graph) (alignment : UInt64) (x : Tensor) : Lowering Extent := do
  let count := x.shape.count
  match ← g.symbols.evaluate count with
  | some n =>
    if n < 0 then
      throw (.shapeMismatch x.subject (.negativeCount (g.symbols.render count) n))
  | none => pure ()
  let bytes := g.symbols.simplify ((count * .value elementBytes).alignUp alignment.toInt64)
  let _ ← g.symbols.evaluate bytes
  pure bytes

/-- All tensors with their sizes, by handle. -/
def Graph.sizedTensors (g : Graph) (alignment : UInt64) : Lowering (List SizedTensor) :=
  g.tensors.mapM fun x => do
    let size ← g.byteSize alignment x
    pure (x, size)

/-! ## Stacks of known size -/

/-- Regions one upon the other, and where the next one begins. -/
structure Stack where
  placed : List Allocation
  height : Int
  deriving DecidableEq, Repr

namespace Stack

/-- The stack without regions. -/
def empty : Stack := ⟨[], 0⟩

/-- A stack with one more region. -/
def push (s : Stack) (space : Space) (x : Tensor) (size : Int64) : Lowering Stack := do
  let height ← addBytes space s.height size.toInt
  pure ⟨s.placed ++ [⟨x.id, x.name, space, .value (.ofInt s.height), .value size⟩], height⟩

/-- A static stack with the region of a weight, whose size must be known. -/
def pushWeight (t : SymbolTable) (s : Stack) : SizedTensor → Lowering Stack
  | (x, size) =>
    match size.asValue with
    | some n => s.push .static x n
    | none => throw (.unsupported (.weight x.name) (.symbolicWeight (t.render size)))

/-- A dynamic stack with the region of a tensor, left out when its size is symbolic. -/
def pushResolved (s : Stack) : SizedTensor → Lowering Stack
  | (x, size) =>
    match size.asValue with
    | some n => s.push .dynamic x n
    | none => pure s

end Stack

/-! ## The arena and the symbolic tail -/

/-- The parcel of an intermediate tensor of known size. -/
def parcelOf (plan : LivenessPlan) (x : Tensor) (size : Int64) : Lowering Parcel :=
  match plan.range? x.id with
  | some live => pure ⟨x.id, size.toInt, live⟩
  | none => throw (.invalidGraph (.noLiveRange x.id))

/-- The region of a packed tensor in a buffer where the arena begins at `base`. -/
def arenaRegion (arena : Arena) (base : Int) (x : Tensor) (size : Int64) : Lowering Allocation := do
  let offset ← addBytes .dynamic base ((arena.offset? x.id).getD 0)
  pure ⟨x.id, x.name, .dynamic, .value (.ofInt offset), .value size⟩

/-- Regions at symbolic offsets, each beginning where the one before it ends; with the end of the
last. -/
def symbolicTail (t : SymbolTable) : Extent → List SizedTensor → List Allocation × Extent
  | base, [] => ([], base)
  | base, (x, size) :: rest =>
    let (regions, stop) := symbolicTail t (t.simplify (base + size)) rest
    (⟨x.id, x.name, .dynamic, base, size⟩ :: regions, stop)

/-! ## The layout -/

/-- The tensors of a role, with sizes. -/
def ofRole (role : Role) (tensors : List SizedTensor) : List SizedTensor :=
  tensors.filter (·.1.role == role)

/-- The tensors whose size is known, with its value. -/
def resolvedSizes (tensors : List SizedTensor) : List (Tensor × Int64) :=
  tensors.filterMap fun (x, size) => size.asValue.map (x, ·)

/-- The tensors whose size is symbolic. -/
def symbolicSizes (tensors : List SizedTensor) : List SizedTensor :=
  tensors.filter (·.2.asValue.isNone)

/-- The regions of a graph's tensors, by handle. -/
def sortRegions (g : Graph) (regions : List Allocation) : List Allocation :=
  g.tensors.filterMap fun x => regions.find? (·.tensor == x.id)

/-- Gives every tensor of a graph a region. -/
def Graph.allocate (g : Graph) (plan : LivenessPlan) (config : Config) : Lowering Layout := do
  if !isPowerOfTwo config.alignment then
    throw (.unsupported .memoryLayout (.unalignable config.alignment))
  let sized ← g.sizedTensors config.alignment
  let weights ← (ofRole .weight sized).foldlM (Stack.pushWeight g.symbols) .empty
  let boundary := ofRole .input sized ++ ofRole .output sized
  let dedicated ← boundary.foldlM Stack.pushResolved .empty
  let intermediates := ofRole .intermediate sized
  let parcels ← (resolvedSizes intermediates).mapM fun (x, size) => parcelOf plan x size
  let arena ← Arena.pack parcels
  let packed ← (resolvedSizes intermediates).mapM fun (x, size) =>
    arenaRegion arena dedicated.height x size
  let resolvedEnd ← addBytes .dynamic dedicated.height arena.size
  let (tail, dynamicSize) := symbolicTail g.symbols (.value (.ofInt resolvedEnd))
    (symbolicSizes boundary ++ symbolicSizes intermediates)
  pure
    { allocations := sortRegions g (weights.placed ++ dedicated.placed ++ packed ++ tail)
      staticSize := .value (.ofInt weights.height)
      dynamicSize
      alignment := config.alignment }

end TensorLowering
