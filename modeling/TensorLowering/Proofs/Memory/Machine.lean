import TensorLowering.Execution.Run
import TensorLowering.Proofs.Execution.View
import TensorLowering.Proofs.Graph.Narrowing
import TensorLowering.Proofs.Layout.Safety
import TensorLowering.Proofs.Memory.Basic

/-!
# Running a layout

The machine that a layout is made for: the two buffers hold nothing but bytes, and an operator reads
its operands from their regions, computes, and writes its result to its region
(`Graph.runInMemory`). A layout is made for one graph and used under a later one, which knows the
values of more symbols (`Deployment`). Then every tensor has a place (`Deployment.exists_place`),
and the places of two tensors are apart unless both are intermediate and never live together
(`Deployment.apart`).
-/

namespace TensorLowering

/-! ## The machine -/

/-- Where the elements of a tensor are: a space, an address, and how many there are. -/
structure Place where
  space : Space
  start : Int
  count : Nat

/-- The place of a tensor in a layout, under the symbols of the graph. -/
def Graph.place (g : Graph) (l : Layout) (x : Tensor) : Lowering Place := do
  let a ← l.get x.id
  let v ← x.view g.symbols
  match ← g.symbols.evaluate a.offset with
  | some offset => pure ⟨a.space, offset.toInt, v.size⟩
  | none => throw (.unsupported x.subject (.unboundExtent (g.symbols.render a.offset)))

section
variable {α : Type}

/-- The array in the region of a tensor. -/
def Graph.readTensor (E : Encoding α) (g : Graph) (l : Layout) (m : Memory) (id : TensorId) :
    Lowering (Array α) := do
  let x ← g.tensor id
  let place ← g.place l x
  pure (m.read E place.space place.start place.count)

/-- The memory with an array in the region of a tensor. -/
def Graph.writeTensor (E : Encoding α) (g : Graph) (l : Layout) (m : Memory) (id : TensorId)
    (data : Array α) : Lowering Memory := do
  let x ← g.tensor id
  let place ← g.place l x
  pure (m.write E place.space place.start data)

/-- The memory with a list of arrays in the regions of their tensors. -/
def Graph.load (E : Encoding α) (g : Graph) (l : Layout) (m : Memory) (values : Values α) :
    Lowering Memory :=
  values.foldlM (fun m entry => g.writeTensor E l m entry.1 entry.2) m

variable [Zero α] [Add α] [Mul α]

/-- One operator: reads both operands, computes, and writes the result. The answer holds what was
read, by tensor. -/
def Graph.stepInMemory (E : Encoding α) (g : Graph) (l : Layout) (m : Memory) (op : Operator) :
    Execution (Values α × Memory) := do
  let data ← Execution.ofLowering (op.input op.kind.dataSlot)
  let parameter ← Execution.ofLowering (op.input op.kind.parameterSlot)
  let xs ← Execution.ofLowering (g.readTensor E l m data)
  let ss ← Execution.ofLowering (g.readTensor E l m parameter)
  let reads : Values α := [(data, xs), (parameter, ss)]
  let ys ← g.runOperator op reads
  let result ← Execution.ofLowering (op.output op.kind.resultSlot)
  let after ← Execution.ofLowering (g.writeTensor E l m result ys)
  pure (reads, after)

/-- A list of operators, one after the other; answers with everything that was read. -/
def Graph.runInMemory (E : Encoding α) (g : Graph) (l : Layout) :
    Memory → List OperatorId → Execution (Values α × Memory)
  | m, [] => pure ([], m)
  | m, id :: rest => do
    let op ← Execution.ofLowering (g.operator id)
    let (reads, after) ← g.stepInMemory E l m op
    let (others, final) ← g.runInMemory E l after rest
    pure (reads ++ others, final)

end

/-! ## Places -/

/-- A tensor is placed where its region is, with as many elements as its view has. -/
theorem Graph.place_eq_ok {g : Graph} {l : Layout} {x : Tensor} {q : Place} :
    g.place l x = .ok q ↔
      ∃ a v offset, l.get x.id = .ok a ∧ x.view g.symbols = .ok v ∧
        g.symbols.Evaluates a.offset offset ∧ q = ⟨a.space, offset.toInt, v.size⟩ := by
  simp only [place, Computation.bind_eq_ok]
  constructor
  · rintro ⟨a, ha, v, hv, offset?, hoffset, h⟩
    cases offset? with
    | none => cases h
    | some offset =>
      cases h
      exact ⟨a, v, offset, ha, hv, hoffset, rfl⟩
  · rintro ⟨a, v, offset, ha, hv, hoffset, rfl⟩
    exact ⟨a, ha, v, hv, some offset, hoffset, rfl⟩

/-- A layout that was made for one graph is used under a later one, which knows all extents and the
total size. -/
structure Deployment (p : LayoutParts) (plan : LivenessPlan) (alignment : UInt64) (l : Layout)
    (g h : Graph) : Prop where
  build : p.Build g plan alignment l
  coherent : g.Coherent
  narrows : g.Narrows h
  views : ∀ x ∈ h.tensors, ∃ v, x.view h.symbols = .ok v
  total : ∃ T, h.symbols.Evaluates l.dynamicSize T

namespace Deployment

variable {p : LayoutParts} {plan : LivenessPlan} {alignment : UInt64} {l : Layout} {g h : Graph}
  {x y : Tensor}

/-- A size with a value is at least four times the number of elements. -/
theorem four_mul_le_size (hd : Deployment p plan alignment l g h) {v : View}
    {size : Extent} {z : Int64} (hv : x.view h.symbols = .ok v)
    (hsize : g.byteSize alignment x = .ok size) (hz : h.symbols.Evaluates size z) :
    4 * (v.size : Int) ≤ z.toInt := by
  obtain ⟨n, hn, hz⟩ := Graph.evaluates_byteSize hsize hz
  rw [hz, ← Tensor.size_of_view hd.narrows.symbols hv hn]
  exact four_mul_le_alignedBytes _ _

/-- No size is negative. -/
theorem nonneg (hd : Deployment p plan alignment l g h) : p.Nonneg h.symbols := by
  intro s hs z hz
  obtain ⟨hmem, hsize⟩ := hd.build.tensor_of_sized hs
  obtain ⟨v, hv⟩ := hd.views s.1 (hd.narrows.tensors ▸ hmem)
  have hle := hd.four_mul_le_size hv hsize hz
  omega

/-- The end of the tail has a value. -/
theorem exists_end (hd : Deployment p plan alignment l g h) :
    ∃ T, h.symbols.Evaluates (p.tail g.symbols).2 T := by
  obtain ⟨T, hT⟩ := hd.total
  exact ⟨T, by rwa [hd.build.layout] at hT⟩

/-- Every tensor has a place, inside its region. -/
theorem exists_place (hd : Deployment p plan alignment l g h) (hx : x ∈ h.tensors) :
    ∃ place, h.place l x = .ok place ∧ ∃ a ∈ p.regions g.symbols, a.tensor = x.id ∧
      a.space = place.space ∧ ∃ stop, a.Spans h.symbols place.start stop ∧
        place.start + 4 * place.count ≤ stop := by
  have hxg : x ∈ g.tensors := hd.narrows.tensors ▸ hx
  obtain ⟨a, hmem, hget, size, hsize, hof⟩ := hd.build.exists_get hd.coherent hxg
  obtain ⟨v, hv⟩ := hd.views x hx
  obtain ⟨T, hT⟩ := hd.exists_end
  obtain ⟨start, stop, hspan, -, -⟩ := hd.build.exists_spans hd.nonneg hT hmem
  obtain ⟨offset, z, hoffset, hz, rfl, rfl⟩ := hspan
  refine ⟨⟨a.space, offset.toInt, v.size⟩,
    Graph.place_eq_ok.2 ⟨a, v, offset, hget, hv, hoffset, rfl⟩, a, hmem, hof.tensor, rfl,
    offset.toInt + z.toInt, ⟨offset, z, hoffset, hz, rfl, rfl⟩, ?_⟩
  have hle := hd.four_mul_le_size hv hsize (hof.size ▸ hz)
  dsimp only
  omega

/-- The places of two tensors are apart, unless both are intermediate and never live together. -/
theorem apart (hd : Deployment p plan alignment l g h) (hx : x ∈ h.tensors) (hy : y ∈ h.tensors)
    (hne : x ≠ y) {place place' : Place} (hplace : h.place l x = .ok place)
    (hplace' : h.place l y = .ok place') :
    (place.space ≠ place'.space ∨ place.start + 4 * place.count ≤ place'.start ∨
      place'.start + 4 * place'.count ≤ place.start) ∨
      x.role = .intermediate ∧ y.role = .intermediate ∧ plan.NeverTogether x.id y.id := by
  obtain ⟨q, hq, a, hmem, hid, hspace, stop, hspan, hle⟩ := hd.exists_place hx
  cases hq.symm.trans hplace
  obtain ⟨q, hq, b, hmem', hid', hspace', stop', hspan', hle'⟩ := hd.exists_place hy
  cases hq.symm.trans hplace'
  rw [hd.narrows.tensors] at hx hy
  have hids : a.tensor ≠ b.tensor := by
    rw [hid, hid']
    exact fun hxy => hne (hd.coherent.eq_of_id hx hy hxy)
  by_cases hsame : a.space = b.space
  · rcases hd.build.apart hd.nonneg.known (fun _ => ⟨hd.nonneg, hd.exists_end⟩) hmem hmem' hsame
      hids hspan hspan' with h | h | ⟨hpa, hpb, hnever⟩
    · exact .inl (.inr (.inl (by omega)))
    · exact .inl (.inr (.inr (by omega)))
    · rw [hid, hid'] at hnever
      exact .inr ⟨hd.build.role_of_packed hd.coherent hpa hx hid,
        hd.build.role_of_packed hd.coherent hpb hy hid', hnever⟩
  · rw [hspace, hspace'] at hsame
    exact .inl (.inl hsame)

end Deployment

end TensorLowering
