import TensorLowering.Proofs.Layout.Regions

/-!
# The arena is packed as low as the order allows

No free offset lies below the lowest fit (`lowestFit_least`): the scan gives up a candidate only for
the end of a busy range that every free offset from the candidate on lies behind. So each tensor is
placed at the lowest offset where it has no byte in common with a tensor that is there and is live
at the same time (`Arena.Greedy.place`), also when tensors without bytes are among them, which all
lie at zero (`Placement.Lowest.offset_eq_zero`). The tensors that are there are those that come
earlier in the order of packing (`Arena.before_iff`). With that, a packing is described by its
tensors alone (`Arena.pack_lowest`).
-/

namespace TensorLowering

/-! ## Stretches of bytes -/

/-- Two stretches of bytes, given by their starts and sizes, have no byte in common. -/
def DisjointBytes (start size start' size' : Int) : Prop :=
  ∀ b, start ≤ b → b < start + size → start' ≤ b → start' + size' ≤ b

/-- Stretches are disjoint when one has no bytes or ends before the other begins. -/
theorem disjointBytes_iff {start size start' size' : Int} :
    DisjointBytes start size start' size' ↔
      size ≤ 0 ∨ size' ≤ 0 ∨ start + size ≤ start' ∨ start' + size' ≤ start := by
  refine ⟨?_, ?_⟩
  · intro h
    -- If they met at all, they would at the later one of the two starts.
    have hmeet := h (max start start')
    omega
  · intro h b hstart hstop hstart'
    omega

/-! ## The order of packing -/

namespace Parcel

variable {a b : Parcel}

/-- A parcel comes before another: it is live earlier, or from the same step on and larger, or is
as large and has the lower handle. -/
def Before (a b : Parcel) : Prop :=
  a.live.first < b.live.first ∨ a.live.first = b.live.first ∧
    (b.size < a.size ∨ b.size = a.size ∧ a.tensor < b.tensor)

/-- A parcel may be placed before another that does not come before it. -/
theorem precedes_iff : a.precedes b = true ↔ ¬ b.Before a := by
  unfold precedes Before TensorId
  split
  · next hfirst =>
    rw [decide_eq_true_eq]
    omega
  · next hfirst =>
    split
    · next hsize =>
      rw [decide_eq_true_eq]
      omega
    · next hsize =>
      rw [decide_eq_true_eq]
      omega

theorem precedes_trans (a b c : Parcel) (hab : a.precedes b = true) (hbc : b.precedes c = true) :
    a.precedes c = true := by
  rw [precedes_iff] at *
  unfold Before TensorId at *
  omega

theorem precedes_total (a b : Parcel) : (a.precedes b || b.precedes a) = true := by
  rw [Bool.or_eq_true, precedes_iff, precedes_iff]
  unfold Before TensorId
  omega

theorem not_before_self (a : Parcel) : ¬ a.Before a := by
  unfold Before TensorId
  omega

/-- Of two tensors, one comes before the other. -/
theorem before_of_precedes (h : a.precedes b = true) (hne : a.tensor ≠ b.tensor) : a.Before b := by
  rw [precedes_iff] at h
  unfold Before TensorId at *
  omega

/-- The parcel is that of a tensor of known size, with its live range in a plan. -/
structure IsOf (parcel : Parcel) (plan : LivenessPlan) (s : Tensor × Int64) : Prop where
  tensor : parcel.tensor = s.1.id
  size : parcel.size = s.2.toInt
  live : plan.range? s.1.id = some parcel.live

section
variable {plan : LivenessPlan} {items : List (Tensor × Int64)} {parcels : List Parcel}

theorem isOf_of_mapM (h : (items.mapM fun s => parcelOf plan s.1 s.2) = .ok parcels) :
    List.Forall₂ (fun s parcel => parcel.IsOf plan s) items parcels := by
  refine (Computation.mapM_eq_ok.1 h).imp ?_
  intro s parcel hparcel
  obtain ⟨live, hlive, rfl⟩ := Graph.parcelOf_eq_ok hparcel
  exact ⟨rfl, rfl, hlive⟩

/-- Parcels of tensors without negative sizes have none. -/
theorem size_nonneg_of_isOf (h : List.Forall₂ (fun s parcel => parcel.IsOf plan s) items parcels)
    (hnonneg : ∀ s ∈ items, 0 ≤ s.2.toInt) : ∀ parcel ∈ parcels, 0 ≤ parcel.size := by
  intro parcel hparcel
  obtain ⟨s, hs, hof⟩ := Computation.exists_item_of_mem h hparcel
  rw [hof.size]
  exact hnonneg s hs

end

end Parcel

/-! ## The lowest fit -/

/-- The lowest fit is not above any offset from the candidate on that is free. -/
theorem lowestFit_least {size : Int} {busy : List (Int × Int)} {candidate offset o : Int}
    (h : lowestFit size busy candidate = .ok offset) (hle : candidate ≤ o)
    (hfree : ∀ r ∈ busy, o + size ≤ r.1 ∨ r.2 ≤ o) : offset ≤ o := by
  induction busy generalizing candidate with
  | nil =>
    cases h
    exact hle
  | cons r busy ih =>
    obtain ⟨start, stop⟩ := r
    obtain ⟨hfirst, hrest⟩ := List.forall_mem_cons.1 hfree
    obtain ⟨reach, hreach, h⟩ := Computation.bind_eq_ok.1 h
    obtain ⟨-, rfl⟩ := addBytes_eq_ok_iff.1 hreach
    split at h
    · next hfits =>
      cases h
      exact hle
    · next hmeets =>
      -- The candidate is too close to the range, and so is everything up to the end of the range.
      refine ih h ?_ hrest
      dsimp only at hfirst
      omega

/-- At an offset a parcel has no byte in common with any placement that is live with it. -/
def Parcel.FreeAt (p : Parcel) (placed : List Placement) (offset : Int) : Prop :=
  0 ≤ offset ∧ ∀ q ∈ placed, q.parcel.live.overlaps p.live = true →
    DisjointBytes offset p.size q.offset q.parcel.size

/-- A placement is at the lowest offset that is free between others. -/
structure Placement.Lowest (p : Placement) (placed : List Placement) : Prop where
  free : p.parcel.FreeAt placed p.offset
  least : ∀ o, p.parcel.FreeAt placed o → p.offset ≤ o

/-- A parcel without bytes lies at zero. -/
theorem Placement.Lowest.offset_eq_zero {p : Placement} {placed : List Placement}
    (h : p.Lowest placed) (hsize : p.parcel.size = 0) : p.offset = 0 := by
  have hzero : p.parcel.FreeAt placed 0 := by
    refine ⟨Int.le_refl _, ?_⟩
    intro q _ _
    rw [disjointBytes_iff]
    omega
  have hle := h.least 0 hzero
  have hnonneg := h.free.1
  omega

/-- Placements, latest first, each of which is at the lowest offset that is free between those
before it. -/
inductive LowestPlaced : List Placement → Prop where
  | nil : LowestPlaced []
  | cons {p : Placement} {placed : List Placement} :
    p.Lowest placed → LowestPlaced placed → LowestPlaced (p :: placed)

namespace LowestPlaced

variable {p : Placement} {placed : List Placement}

/-- Every placement is lowest among those before it. -/
theorem lowest_of_append {later : List Placement} (h : LowestPlaced (later ++ p :: placed)) :
    p.Lowest placed := by
  induction later with
  | nil =>
    cases h with
    | cons hp _ => exact hp
  | cons q later ih =>
    cases h with
    | cons _ hrest => exact ih hrest

theorem offset_nonneg (h : LowestPlaced placed) (hp : p ∈ placed) : 0 ≤ p.offset := by
  obtain ⟨later, earlier, rfl⟩ := List.append_of_mem hp
  exact h.lowest_of_append.free.1

theorem offset_eq_zero (h : LowestPlaced placed) (hp : p ∈ placed) (hsize : p.parcel.size = 0) :
    p.offset = 0 := by
  obtain ⟨later, earlier, rfl⟩ := List.append_of_mem hp
  exact h.lowest_of_append.offset_eq_zero hsize

end LowestPlaced

/-! ## Packing -/

namespace Arena

variable {a b : Arena} {parcel : Parcel} {parcels : List Parcel}

/-- Tensors are placed as low as those before them allow, none has a negative size, and the arena
ends with the last of their bytes. -/
structure Greedy (a : Arena) : Prop where
  lowest : LowestPlaced a.placements
  size_nonneg : ∀ p ∈ a.placements, 0 ≤ p.parcel.size
  size : a.placements = [] ∧ a.size = 0 ∨ ∃ p ∈ a.placements, p.stop = a.size

theorem greedy_empty : empty.Greedy := ⟨.nil, nofun, .inl ⟨rfl, rfl⟩⟩

/-- In an arena that is packed this way, a parcel is free where it keeps clear of the busy
ranges. -/
theorem Greedy.freeAt_iff (ha : a.Greedy) (hparcel : 0 < parcel.size) {o : Int} :
    parcel.FreeAt a.placements o ↔
      0 ≤ o ∧ ∀ r ∈ a.busy parcel, o + parcel.size ≤ r.1 ∨ r.2 ≤ o := by
  refine ⟨?_, ?_⟩
  · intro h
    obtain ⟨hnonneg, hdisjoint⟩ := h
    refine ⟨hnonneg, ?_⟩
    intro r hr
    obtain ⟨q, hq, hlive, rfl⟩ := mem_busy.1 hr
    have hapart := disjointBytes_iff.1 (hdisjoint q hq hlive)
    have hsize := ha.size_nonneg q hq
    have hzero := ha.lowest.offset_eq_zero hq
    simp only [Placement.stop]
    omega
  · intro h
    obtain ⟨hnonneg, hfree⟩ := h
    refine ⟨hnonneg, ?_⟩
    intro q hq hlive
    have hclear := hfree _ (mem_busy.2 ⟨q, hq, hlive, rfl⟩)
    simp only [Placement.stop] at hclear
    rw [disjointBytes_iff]
    omega

/-- The lowest fit between the busy ranges is the lowest offset that is free. -/
theorem Greedy.lowest_of_lowestFit (ha : a.Greedy) (hparcel : 0 ≤ parcel.size) {offset : Int}
    (h : lowestFit parcel.size (a.busy parcel) 0 = .ok offset) :
    (⟨parcel, offset⟩ : Placement).Lowest a.placements := by
  obtain ⟨hnonneg, hfree, -⟩ := lowestFit_spec (a.busy_sorted parcel) h
  rcases Int.lt_or_eq_of_le hparcel with hpos | hzero
  · refine ⟨(ha.freeAt_iff hpos).2 ⟨hnonneg, hfree⟩, ?_⟩
    intro o ho
    obtain ⟨hle, hclear⟩ := (ha.freeAt_iff hpos).1 ho
    exact lowestFit_least h hle hclear
  · -- Without bytes the parcel is free everywhere, and no busy range begins below zero.
    have hoffset : offset ≤ 0 := by
      refine lowestFit_least h (Int.le_refl _) ?_
      intro r hr
      obtain ⟨q, hq, -, rfl⟩ := mem_busy.1 hr
      have hstart := ha.lowest.offset_nonneg hq
      dsimp only
      omega
    refine ⟨⟨hnonneg, ?_⟩, ?_⟩
    · intro q _ _
      rw [disjointBytes_iff]
      dsimp only
      omega
    · intro o ho
      exact Int.le_trans hoffset ho.1

/-- One more tensor is placed as low as those before it allow. -/
theorem Greedy.place (ha : a.Greedy) (hparcel : 0 ≤ parcel.size) (h : a.place parcel = .ok b) :
    b.Greedy := by
  obtain ⟨offset, hoffset, rfl⟩ := place_eq_ok h
  have hlowest := ha.lowest_of_lowestFit hparcel hoffset
  refine ⟨.cons hlowest ha.lowest, List.forall_mem_cons.2 ⟨hparcel, ha.size_nonneg⟩, .inr ?_⟩
  have hstop : 0 ≤ offset + parcel.size := Int.add_nonneg hlowest.free.1 hparcel
  rcases Int.le_total a.size (offset + parcel.size) with hmax | hmax
  · exact ⟨_, List.mem_cons_self, (Int.max_eq_right hmax).symm⟩
  · rcases ha.size with hempty | hlast
    · refine ⟨_, List.mem_cons_self, ?_⟩
      simp only [Placement.stop]
      omega
    · obtain ⟨q, hq, hsize⟩ := hlast
      exact ⟨q, List.mem_cons_of_mem _ hq, hsize.trans (Int.max_eq_left hmax).symm⟩

theorem greedy_of_pack (hnonneg : ∀ p ∈ parcels, 0 ≤ p.size) (h : pack parcels = .ok a) :
    a.Greedy := by
  refine Computation.foldlM_invariant (P := Greedy) ?_ greedy_empty h
  intro s t p hp hs ht
  exact hs.place (hnonneg p ((List.mergeSort_perm parcels _).mem_iff.1 hp)) ht

/-- Among placements, latest first, those before one are those whose parcels come before it. -/
theorem before_iff (h : pack parcels = .ok a) (hnodup : (parcels.map Parcel.tensor).Nodup)
    {later earlier : List Placement} {p q : Placement} (ha : a.placements = later ++ p :: earlier)
    (hq : q ∈ a.placements) : q.parcel.Before p.parcel ↔ q ∈ earlier := by
  have hsorted : a.placements.Pairwise fun r s => s.parcel.precedes r.parcel = true := by
    have hparcels := parcels_of_pack h
    have hpairwise := List.pairwise_mergeSort Parcel.precedes_trans Parcel.precedes_total parcels
    rw [← List.pairwise_reverse, ← hparcels, List.pairwise_map] at hpairwise
    exact hpairwise
  have hkeys : (a.placements.map (·.parcel.tensor)).Nodup := by
    have hperm := (pack_eq_ok h).2.map Parcel.tensor
    rw [List.map_map] at hperm
    exact hperm.nodup_iff.2 hnodup
  rw [ha] at hsorted hkeys hq
  obtain ⟨-, hrest, hlater⟩ := List.pairwise_append.1 hsorted
  have hearlier := (List.pairwise_cons.1 hrest).1
  refine ⟨?_, ?_⟩
  · intro hbefore
    rcases List.mem_append.1 hq with hq | hq
    · have hprecedes := hlater q hq p List.mem_cons_self
      exact absurd hbefore (Parcel.precedes_iff.1 hprecedes)
    · rcases List.mem_cons.1 hq with rfl | hq
      · exact absurd hbefore (Parcel.not_before_self _)
      · exact hq
  · intro hq
    refine Parcel.before_of_precedes (hearlier q hq) ?_
    rw [List.map_append, List.map_cons] at hkeys
    have hfresh := (List.nodup_cons.1 (List.nodup_append.1 hkeys).2.1).1
    intro heq
    exact hfresh (List.mem_map.2 ⟨q, hq, heq⟩)

/-- At an offset a parcel has no byte in common with any packed parcel that comes before it and is
live at the same time. -/
def FreeAt (a : Arena) (p : Parcel) (offset : Int) : Prop :=
  0 ≤ offset ∧ ∀ q ∈ a.placements, q.parcel.Before p → q.parcel.live.overlaps p.live = true →
    DisjointBytes offset p.size q.offset q.parcel.size

/-- Every parcel is at the lowest offset that those before it leave free, and the arena ends where
the last one does. -/
structure Lowest (a : Arena) : Prop where
  free : ∀ p ∈ a.placements, a.FreeAt p.parcel p.offset
  least : ∀ p ∈ a.placements, ∀ o, a.FreeAt p.parcel o → p.offset ≤ o
  stop_le : ∀ p ∈ a.placements, p.stop ≤ a.size
  size : a.placements = [] ∧ a.size = 0 ∨ ∃ p ∈ a.placements, p.stop = a.size

theorem lowest_of_pack (hnodup : (parcels.map Parcel.tensor).Nodup)
    (hnonneg : ∀ p ∈ parcels, 0 ≤ p.size) (h : pack parcels = .ok a) : a.Lowest := by
  have hgreedy := greedy_of_pack hnonneg h
  have hlowest : ∀ p ∈ a.placements, ∃ earlier, p.Lowest earlier ∧
      ∀ o, a.FreeAt p.parcel o ↔ p.parcel.FreeAt earlier o := by
    intro p hp
    obtain ⟨later, earlier, ha⟩ := List.append_of_mem hp
    have hplaced := hgreedy.lowest
    rw [ha] at hplaced
    refine ⟨earlier, hplaced.lowest_of_append, ?_⟩
    intro o
    refine and_congr_right fun _ => ⟨?_, ?_⟩
    · intro hfree q hq
      have hmem : q ∈ a.placements := by
        rw [ha]
        exact List.mem_append_right _ (List.mem_cons_of_mem _ hq)
      exact hfree q hmem ((before_iff h hnodup ha hmem).2 hq)
    · intro hfree q hq hbefore
      exact hfree q ((before_iff h hnodup ha hq).1 hbefore)
  refine ⟨?_, ?_, (pack_eq_ok h).1.stop_le, hgreedy.size⟩
  · intro p hp
    obtain ⟨earlier, hp, hfree⟩ := hlowest p hp
    exact (hfree _).2 hp.free
  · intro p hp o ho
    obtain ⟨earlier, hp, hfree⟩ := hlowest p hp
    exact hp.least o ((hfree o).1 ho)

/-- Tensors of known size are packed under a plan: each has one placement, with its live range in
the plan, and is found there. -/
structure Holds (a : Arena) (plan : LivenessPlan) (items : List (Tensor × Int64)) : Prop where
  parcels : ∃ parcels, List.Forall₂ (fun s parcel => parcel.IsOf plan s) items parcels ∧
    (a.placements.map Placement.parcel).Perm parcels
  offset : ∀ p ∈ a.placements, a.offset? p.parcel.tensor = some p.offset

/-- Packing puts every tensor at the lowest offset that is not negative and at which it has no byte
in common with an earlier tensor that is live at the same time; the arena ends where the last
tensor does. -/
theorem pack_lowest {plan : LivenessPlan} {items : List (Tensor × Int64)}
    (hnodup : (items.map (·.1.id)).Nodup) (hnonneg : ∀ s ∈ items, 0 ≤ s.2.toInt)
    (hparcels : (items.mapM fun s => parcelOf plan s.1 s.2) = .ok parcels)
    (hpack : pack parcels = .ok a) : a.Holds plan items ∧ a.Lowest := by
  have hof := Parcel.isOf_of_mapM hparcels
  have hids : items.map (·.1.id) = parcels.map Parcel.tensor :=
    Computation.map_eq_map hof fun s parcel h => h.tensor.symm
  rw [hids] at hnodup
  refine ⟨⟨⟨parcels, hof, (pack_eq_ok hpack).2⟩, ?_⟩, ?_⟩
  · intro p hp
    exact offset?_of_mem hpack hnodup hp
  · exact lowest_of_pack hnodup (Parcel.size_nonneg_of_isOf hof hnonneg) hpack

/-- A graph that scales a batch of two vectors three times. -/
def threeScalings : Graph :=
  Graph.empty.replay [.addTensor .input "x" .nc [.value 2, .value 4],
    .addTensor .weight "s" .c [.value 4], .addOperator none (.axiswiseScale .c), .apply 0 [0, 1],
    .addOperator none (.axiswiseScale .c), .apply 1 [2, 1],
    .addOperator none (.axiswiseScale .c), .apply 2 [3, 1]]

/-- The results of `threeScalings`, with sizes of 32, 64 and 16 bytes. -/
def threeResults : List (Tensor × Int64) := (threeScalings.tensors.drop 2).zip [32, 64, 16]

/-- The live ranges of `threeScalings`. -/
def threePlan : LivenessPlan := (Schedule.mk [0, 1, 2]).liveness threeScalings

/-- The last of the three results takes the bytes of the first. -/
def threeArena : Arena where
  placements := [⟨⟨4, 16, ⟨4, .intermediate, 2, 2⟩⟩, 0⟩, ⟨⟨3, 64, ⟨3, .intermediate, 1, 2⟩⟩, 32⟩,
    ⟨⟨2, 32, ⟨2, .intermediate, 0, 1⟩⟩, 0⟩]
  size := 96

theorem parcels_threeResults : (threeResults.mapM fun s => parcelOf threePlan s.1 s.2) =
    .ok (threeArena.placements.map Placement.parcel).reverse := by
  decide +kernel

theorem pack_threeResults :
    pack (threeArena.placements.map Placement.parcel).reverse = .ok threeArena := by
  rw [pack, List.mergeSort_of_pairwise (by decide +kernel)]
  decide +kernel

theorem pack_lowest_threeResults :
    threeArena.Holds threePlan threeResults ∧ threeArena.Lowest :=
  pack_lowest (by decide +kernel) (by decide +kernel) parcels_threeResults pack_threeResults

end Arena

end TensorLowering
