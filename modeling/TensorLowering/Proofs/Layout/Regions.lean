import TensorLowering.Proofs.Graph.Growth
import TensorLowering.Proofs.Layout.Arena
import TensorLowering.Proofs.Layout.Size
import TensorLowering.Proofs.Layout.Tail

/-!
# Where the regions of a layout come from

A layout is put together from four lists of regions: the stack of the weights, the stack of inputs
and outputs of known size, the arena of the intermediates of known size, and the symbolic tail.
`LayoutParts` holds them, and `LayoutParts.Build` says that they are those of a layout
(`Graph.allocate_eq_ok`). Every tensor has one region in one of the lists
(`LayoutParts.Build.allocations`), and every region belongs to a tensor, whose role decides the list
(`LayoutParts.Build.region_cases`).
-/

namespace TensorLowering

/-- The space of the tensors of a role. -/
def Role.space : Role → Space
  | weight => .static
  | input | output | intermediate => .dynamic

/-- Only weights are static. -/
theorem Role.space_eq_dynamic {role : Role} (h : role ≠ .weight) : role.space = .dynamic := by
  cases role with
  | weight => exact absurd rfl h
  | input | output | intermediate => rfl

/-- What a layout is put together from. -/
structure LayoutParts where
  sized : List SizedTensor
  weights : Stack
  dedicated : Stack
  arena : Arena
  packed : List Allocation

namespace LayoutParts

/-- The tensors that cross the border of the graph. -/
def boundary (p : LayoutParts) : List SizedTensor := ofRole .input p.sized ++ ofRole .output p.sized

/-- The intermediate tensors. -/
def intermediates (p : LayoutParts) : List SizedTensor := ofRole .intermediate p.sized

/-- The tensors of symbolic size, in the order of the tail. -/
def symbolic (p : LayoutParts) : List SizedTensor :=
  symbolicSizes p.boundary ++ symbolicSizes p.intermediates

/-- Where the dynamic regions of known size end. -/
def resolvedEnd (p : LayoutParts) : Int := p.dedicated.height + p.arena.size

/-- The regions of symbolic size and the end of the last. -/
def tail (p : LayoutParts) (t : SymbolTable) : List Allocation × Extent :=
  symbolicTail t (.value (.ofInt p.resolvedEnd)) p.symbolic

/-- All regions. -/
def regions (p : LayoutParts) (t : SymbolTable) : List Allocation :=
  p.weights.placed ++ p.dedicated.placed ++ p.packed ++ (p.tail t).1

/-- The tensor has a place in the arena, and the region is that place. -/
structure Packs (p : LayoutParts) (plan : LivenessPlan) (x : Tensor) (size : Int64)
    (a : Allocation) (live : LiveRange) (placement : Placement) : Prop where
  range : plan.range? x.id = some live
  placed : placement ∈ p.arena.placements
  parcel : placement.parcel = ⟨x.id, size.toInt, live⟩
  region : a.IsOf .dynamic x (.value size)
  resolved : a.isResolved = true
  spans : ∀ t, a.Spans t (p.dedicated.height + placement.offset)
    (p.dedicated.height + placement.stop)

/-- The parts are those of a layout. -/
structure Build (p : LayoutParts) (g : Graph) (plan : LivenessPlan) (alignment : UInt64)
    (l : Layout) : Prop where
  sized : List.Forall₂ (fun x s => s.1 = x ∧ g.byteSize alignment x = .ok s.2) g.tensors p.sized
  weights : Stack.empty.pushAll .static (resolvedSizes (ofRole .weight p.sized)) = .ok p.weights
  weights_known : symbolicSizes (ofRole .weight p.sized) = []
  dedicated : Stack.empty.pushAll .dynamic (resolvedSizes p.boundary) = .ok p.dedicated
  arena : p.arena.Packed
  parcels : ∀ q ∈ p.arena.placements, ∃ s ∈ resolvedSizes p.intermediates,
    q.parcel.size = s.2.toInt
  packed : List.Forall₂ (fun s a => ∃ live placement, p.Packs plan s.1 s.2 a live placement)
    (resolvedSizes p.intermediates) p.packed
  fits : FitsWord p.resolvedEnd
  layout : l = ⟨sortRegions g (p.regions g.symbols), .value (.ofInt p.weights.height),
    (p.tail g.symbols).2, alignment⟩

end LayoutParts

/-! ## Tensors of a role and of a kind of size -/

section
variable {s : SizedTensor} {x : Tensor} {n : Int64} {tensors : List SizedTensor} {role : Role}

theorem mem_ofRole : s ∈ ofRole role tensors ↔ s ∈ tensors ∧ s.1.role = role := by
  simp [ofRole]

theorem mem_resolvedSizes : (x, n) ∈ resolvedSizes tensors ↔ (x, .value n) ∈ tensors := by
  simp only [resolvedSizes, List.mem_filterMap, Option.map_eq_some_iff, Extent.asValue_eq_some_iff]
  constructor
  · rintro ⟨⟨y, size⟩, hmem, m, rfl, hm⟩
    cases hm
    exact hmem
  · exact fun hmem => ⟨(x, .value n), hmem, n, rfl, rfl⟩

theorem mem_symbolicSizes : s ∈ symbolicSizes tensors ↔ s ∈ tensors ∧ s.2.asValue = none := by
  simp [symbolicSizes]

/-- Tensors of known size and of one role, each of which occurs as often as in the whole list. -/
theorem resolvedSizes_sublist (role : Role) (tensors : List SizedTensor) :
    ((resolvedSizes (ofRole role tensors)).map (·.1.id)).Sublist (tensors.map (·.1.id)) := by
  induction tensors with
  | nil => exact .slnil
  | cons s rest ih =>
    rw [List.map_cons]
    simp only [ofRole, List.filter_cons] at ih ⊢
    split
    · simp only [resolvedSizes, List.filterMap_cons] at ih ⊢
      cases s.2.asValue with
      | none => exact ih.cons _
      | some n => exact ih.cons_cons _
    · exact ih.cons _

end

namespace Graph

variable {g : Graph} {plan : LivenessPlan} {config : Config} {l : Layout}

/-- Every tensor is listed with its size. -/
theorem sizedTensors_eq_ok {alignment : UInt64} {sized : List SizedTensor}
    (h : g.sizedTensors alignment = .ok sized) :
    List.Forall₂ (fun x s => s.1 = x ∧ g.byteSize alignment x = .ok s.2) g.tensors sized := by
  refine (Computation.mapM_eq_ok.1 h).imp fun x s hs => ?_
  obtain ⟨size, hsize, hs⟩ := Computation.bind_eq_ok.1 hs
  cases hs
  exact ⟨rfl, hsize⟩

/-- A tensor with a live range in the plan has a parcel. -/
theorem parcelOf_eq_ok {x : Tensor} {n : Int64} {parcel : Parcel}
    (h : parcelOf plan x n = .ok parcel) :
    ∃ live, plan.range? x.id = some live ∧ parcel = ⟨x.id, n.toInt, live⟩ := by
  unfold parcelOf at h
  split at h
  · next live hlive =>
    cases h
    exact ⟨live, hlive, rfl⟩
  · cases h

/-- Every tensor of known size that was packed has a live range, a placement and an offset. -/
theorem exists_packing {items : List (Tensor × Int64)} {parcels : List Parcel} {arena : Arena}
    (hparcels : List.Forall₂ (fun s parcel => parcelOf plan s.1 s.2 = .ok parcel) items parcels)
    (hnodup : (items.map (·.1.id)).Nodup) (harena : Arena.pack parcels = .ok arena)
    {s : Tensor × Int64} (hs : s ∈ items) :
    ∃ live, plan.range? s.1.id = some live ∧ ∃ placement ∈ arena.placements,
      placement.parcel = ⟨s.1.id, s.2.toInt, live⟩ ∧
        arena.offset? s.1.id = some placement.offset := by
  have hkeys : items.map (·.1.id) = parcels.map Parcel.tensor := by
    refine Computation.map_eq_map hparcels fun s parcel h => ?_
    obtain ⟨live, -, rfl⟩ := parcelOf_eq_ok h
    rfl
  obtain ⟨parcel, hmem, h⟩ := Computation.exists_result_of_mem hparcels hs
  obtain ⟨live, hlive, rfl⟩ := parcelOf_eq_ok h
  obtain ⟨placement, hplaced, hof, hoffset⟩ :=
    Arena.exists_placement harena (hkeys ▸ hnodup) hmem
  exact ⟨live, hlive, placement, hplaced, hof, hoffset⟩

/-- The stages of a successful layout. -/
theorem allocate_eq_ok (hg : g.Coherent) (h : g.allocate plan config = .ok l) :
    isPowerOfTwo config.alignment = true ∧
      ∃ p : LayoutParts, p.Build g plan config.alignment l := by
  unfold allocate at h
  obtain ⟨hpow, h⟩ := Computation.guard_eq_ok.1 h
  obtain ⟨sized, hsized, h⟩ := Computation.bind_eq_ok.1 h
  obtain ⟨weights, hweights, h⟩ := Computation.bind_eq_ok.1 h
  obtain ⟨dedicated, hdedicated, h⟩ := Computation.bind_eq_ok.1 h
  obtain ⟨parcels, hparcels, h⟩ := Computation.bind_eq_ok.1 h
  obtain ⟨arena, harena, h⟩ := Computation.bind_eq_ok.1 h
  obtain ⟨packed, hpacked, h⟩ := Computation.bind_eq_ok.1 h
  obtain ⟨resolvedEnd, hend, h⟩ := Computation.bind_eq_ok.1 h
  obtain ⟨hfits, rfl⟩ := addBytes_eq_ok_iff.1 hend
  cases h
  rw [Stack.foldlM_pushResolved] at hdedicated
  obtain ⟨hweights, hknown⟩ := Stack.foldlM_pushWeight hweights
  have hsized := sizedTensors_eq_ok hsized
  have hparcels := Computation.mapM_eq_ok.1 hparcels
  have hpacked := Computation.mapM_eq_ok.1 hpacked
  obtain ⟨harena', hperm⟩ := Arena.pack_eq_ok harena
  refine ⟨by simpa using hpow, ⟨sized, weights, dedicated, arena, packed⟩,
    hsized, hweights, hknown, hdedicated, harena', fun q hq => ?_, ?_, hfits, rfl⟩
  · obtain ⟨s, hs, h⟩ := Computation.exists_item_of_mem hparcels
      (hperm.mem_iff.1 (List.mem_map_of_mem hq))
    obtain ⟨live, -, hparcel⟩ := parcelOf_eq_ok h
    exact ⟨s, hs, by rw [hparcel]⟩
  have hnodup : ((resolvedSizes (ofRole .intermediate sized)).map (·.1.id)).Nodup := by
    refine (resolvedSizes_sublist _ _).nodup ?_
    rw [← Computation.map_eq_map hsized (f := Tensor.id) fun x s hs => by rw [hs.1]]
    exact hg.nodup_ids
  have hpackings := fun s hs => exists_packing hparcels hnodup harena (s := s) hs
  refine ((List.forall₂_and_left _ _).2 ⟨hpackings, hpacked⟩).imp ?_
  rintro ⟨x, n⟩ a ⟨⟨live, hlive, placement, hplaced, hparcel, hoffset⟩, ha⟩
  obtain ⟨offset, hadd, ha⟩ := Computation.bind_eq_ok.1 ha
  obtain ⟨hfits, rfl⟩ := addBytes_eq_ok_iff.1 hadd
  cases ha
  rw [hoffset, Option.getD_some] at *
  refine ⟨live, placement, hlive, hplaced, hparcel, ⟨rfl, rfl, rfl, rfl⟩, rfl, fun t => ?_⟩
  rw [Placement.stop, hparcel, ← Int.add_assoc]
  exact Allocation.spans_ofInt hfits rfl rfl t

end Graph

/-! ## Regions and tensors -/

namespace LayoutParts

variable {p : LayoutParts} {g : Graph} {plan : LivenessPlan} {alignment : UInt64} {l : Layout}
  {a : Allocation} {s : SizedTensor} {x : Tensor}

/-- The regions of the tail belong to tensors of symbolic size. -/
theorem tail_regions (p : LayoutParts) (t : SymbolTable) :
    List.Forall₂ (fun s a => a.IsOf .dynamic s.1 s.2) p.symbolic (p.tail t).1 :=
  symbolicTail_regions _ _ _

theorem mem_symbolic :
    s ∈ p.symbolic ↔ s ∈ p.sized ∧ s.1.role ≠ .weight ∧ s.2.asValue = none := by
  simp only [symbolic, boundary, intermediates, List.mem_append, mem_symbolicSizes, mem_ofRole]
  cases s.1.role <;> simp

/-- A region of known place is not in the tail. -/
theorem not_mem_tail (p : LayoutParts) {r : Int × Int} (ha : a.byteRange? = some r)
    (t : SymbolTable) : a ∉ (p.tail t).1 := by
  intro hmem
  obtain ⟨s, hs, hof⟩ := Computation.exists_item_of_mem (p.tail_regions t) hmem
  have hnone := (mem_symbolic.1 hs).2.2
  rw [← hof.size] at hnone
  unfold Allocation.byteRange? at ha
  rw [hnone] at ha
  split at ha
  · next h => cases h
  · cases ha

namespace Build

/-- A sized tensor is a tensor of the graph with its size. -/
theorem tensor_of_sized (hb : p.Build g plan alignment l) (hs : s ∈ p.sized) :
    s.1 ∈ g.tensors ∧ g.byteSize alignment s.1 = .ok s.2 := by
  obtain ⟨x, hx, rfl, hsize⟩ := Computation.exists_item_of_mem hb.sized hs
  exact ⟨hx, hsize⟩

/-- A region belongs to a sized tensor whose role decides which list it is in. -/
theorem region_cases (hb : p.Build g plan alignment l) (ha : a ∈ p.regions g.symbols) :
    ∃ s ∈ p.sized, a.IsOf s.1.role.space s.1 s.2 ∧
      (s.1.role = .weight ∧ a ∈ p.weights.placed ∨
        (s.1.role = .input ∨ s.1.role = .output) ∧ a ∈ p.dedicated.placed ∨
        s.1.role = .intermediate ∧ a ∈ p.packed ∨
        s.1.role ≠ .weight ∧ s.2.asValue = none ∧ a ∈ (p.tail g.symbols).1) := by
  simp only [regions, List.mem_append, or_assoc] at ha
  rcases ha with ha | ha | ha | ha
  · obtain ⟨⟨x, n⟩, hs, hof, -⟩ :=
      Computation.exists_item_of_mem (Stack.regions_of_pushAll hb.weights) ha
    obtain ⟨hs, hrole⟩ := mem_ofRole.1 (mem_resolvedSizes.1 hs)
    exact ⟨_, hs, by rw [hrole]; exact hof, .inl ⟨hrole, ha⟩⟩
  · obtain ⟨⟨x, n⟩, hs, hof, -⟩ :=
      Computation.exists_item_of_mem (Stack.regions_of_pushAll hb.dedicated) ha
    rcases List.mem_append.1 (mem_resolvedSizes.1 hs) with hs | hs
    · obtain ⟨hs, hrole⟩ := mem_ofRole.1 hs
      exact ⟨_, hs, by rw [hrole]; exact hof, .inr (.inl ⟨.inl hrole, ha⟩)⟩
    · obtain ⟨hs, hrole⟩ := mem_ofRole.1 hs
      exact ⟨_, hs, by rw [hrole]; exact hof, .inr (.inl ⟨.inr hrole, ha⟩)⟩
  · obtain ⟨⟨x, n⟩, hs, live, placement, hpack⟩ := Computation.exists_item_of_mem hb.packed ha
    obtain ⟨hs, hrole⟩ := mem_ofRole.1 (mem_resolvedSizes.1 hs)
    exact ⟨_, hs, by rw [hrole]; exact hpack.region, .inr (.inr (.inl ⟨hrole, ha⟩))⟩
  · obtain ⟨s, hs, hof⟩ := Computation.exists_item_of_mem (p.tail_regions g.symbols) ha
    obtain ⟨hs, hrole, hnone⟩ := mem_symbolic.1 hs
    refine ⟨s, hs, ?_, .inr (.inr (.inr ⟨hrole, hnone, ha⟩))⟩
    rw [Role.space_eq_dynamic hrole]
    exact hof

/-- Only the regions of the tail can have an unknown place. -/
theorem isResolved_or_mem_tail (hb : p.Build g plan alignment l) (ha : a ∈ p.regions g.symbols) :
    a.isResolved = true ∨ a ∈ (p.tail g.symbols).1 := by
  simp only [regions, List.mem_append, or_assoc] at ha
  rcases ha with ha | ha | ha | ha
  · obtain ⟨s, -, -, hresolved⟩ :=
      Computation.exists_item_of_mem (Stack.regions_of_pushAll hb.weights) ha
    exact .inl hresolved
  · obtain ⟨s, -, -, hresolved⟩ :=
      Computation.exists_item_of_mem (Stack.regions_of_pushAll hb.dedicated) ha
    exact .inl hresolved
  · obtain ⟨s, -, live, placement, hpack⟩ := Computation.exists_item_of_mem hb.packed ha
    exact .inl hpack.resolved
  · exact .inr ha

/-- Every sized tensor has a region. -/
theorem exists_region (hb : p.Build g plan alignment l) (hs : s ∈ p.sized) :
    ∃ a ∈ p.regions g.symbols, a.tensor = s.1.id := by
  simp only [regions, List.mem_append, or_assoc]
  obtain ⟨x, size⟩ := s
  cases hsize : size.asValue with
  | none =>
    by_cases hrole : x.role = .weight
    · have hmem : (x, size) ∈ symbolicSizes (ofRole .weight p.sized) :=
        mem_symbolicSizes.2 ⟨mem_ofRole.2 ⟨hs, hrole⟩, hsize⟩
      rw [hb.weights_known] at hmem
      cases hmem
    · obtain ⟨a, ha, hof⟩ := Computation.exists_result_of_mem (p.tail_regions g.symbols)
        (mem_symbolic.2 ⟨hs, hrole, hsize⟩)
      exact ⟨a, .inr (.inr (.inr ha)), hof.tensor⟩
  | some n =>
    rw [Extent.asValue_eq_some_iff] at hsize
    subst hsize
    cases hrole : x.role with
    | weight =>
      obtain ⟨a, ha, hof, -⟩ :=
        Computation.exists_result_of_mem (Stack.regions_of_pushAll hb.weights)
          (mem_resolvedSizes.2 (mem_ofRole.2 ⟨hs, hrole⟩))
      exact ⟨a, .inl ha, hof.tensor⟩
    | input =>
      obtain ⟨a, ha, hof, -⟩ :=
        Computation.exists_result_of_mem (Stack.regions_of_pushAll hb.dedicated)
          (mem_resolvedSizes.2 (List.mem_append_left _ (mem_ofRole.2 ⟨hs, hrole⟩)))
      exact ⟨a, .inr (.inl ha), hof.tensor⟩
    | output =>
      obtain ⟨a, ha, hof, -⟩ :=
        Computation.exists_result_of_mem (Stack.regions_of_pushAll hb.dedicated)
          (mem_resolvedSizes.2 (List.mem_append_right _ (mem_ofRole.2 ⟨hs, hrole⟩)))
      exact ⟨a, .inr (.inl ha), hof.tensor⟩
    | intermediate =>
      obtain ⟨a, ha, live, placement, hpack⟩ := Computation.exists_result_of_mem hb.packed
        (mem_resolvedSizes.2 (mem_ofRole.2 ⟨hs, hrole⟩))
      exact ⟨a, .inr (.inr (.inl ha)), hpack.region.tensor⟩

/-- Tensor by tensor, the layout holds the region of the tensor. -/
theorem allocations (hb : p.Build g plan alignment l) (hg : g.Coherent) :
    List.Forall₂ (fun x a => a ∈ p.regions g.symbols ∧
        ∃ size, g.byteSize alignment x = .ok size ∧ a.IsOf x.role.space x size)
      g.tensors l.allocations := by
  have hfind : ∀ x ∈ g.tensors, ∃ a, (p.regions g.symbols).find? (·.tensor == x.id) = some a := by
    intro x hx
    obtain ⟨⟨y, size⟩, hs, rfl, hsize⟩ := Computation.exists_result_of_mem hb.sized hx
    obtain ⟨a, ha, hid⟩ := hb.exists_region hs
    exact Option.isSome_iff_exists.1 (List.find?_isSome.2 ⟨a, ha, by simpa using hid⟩)
  rw [hb.layout]
  refine (Computation.filterMap_total hfind).imp fun x a ⟨hx, h⟩ => ?_
  have ha := List.mem_of_find?_eq_some h
  have hid : a.tensor = x.id := by simpa using List.find?_some h
  obtain ⟨s, hs, hof, -⟩ := hb.region_cases ha
  obtain ⟨hmem, hsize⟩ := hb.tensor_of_sized hs
  cases hg.eq_of_id hx hmem (hid.symm.trans hof.tensor)
  exact ⟨ha, s.2, hsize, hof⟩

end Build

end LayoutParts

end TensorLowering
