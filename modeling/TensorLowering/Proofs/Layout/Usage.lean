import Mathlib.Data.Int.Interval
import TensorLowering.Proofs.Layout.LowestFit
import TensorLowering.Proofs.Liveness

/-!
# How much memory the arena takes

Sharing bytes never costs memory. A tensor is placed at zero or right behind one that is there, so
it makes the arena larger by its own size at most (`Arena.size_place_le`), and the whole arena takes
no more than all tensors one after the other. On the other hand, tensors that are live at one step
share no byte, so at every step the arena has a byte for each of theirs
(`LowestPlaced.exists_bytes`). `Arena.pack_size_bounds` puts both together.
-/

namespace TensorLowering

/-! ## Sizes taken together -/

/-- The sizes of all elements of a list taken together. -/
def totalBytes {α : Type} (size : α → Int) : List α → Int
  | [] => 0
  | a :: rest => size a + totalBytes size rest

section
variable {α β : Type} {size : α → Int} {size' : β → Int} {items items' : List α} {others : List β}

theorem totalBytes_perm (h : items.Perm items') :
    totalBytes size items = totalBytes size items' := by
  induction h with
  | nil => rfl
  | cons a _ ih => rw [totalBytes, totalBytes, ih]
  | swap a b rest =>
    simp only [totalBytes]
    omega
  | trans _ _ ih ih' => exact ih.trans ih'

/-- Elements of pairwise equal sizes take the same bytes together. -/
theorem totalBytes_congr (h : List.Forall₂ (fun a b => size a = size' b) items others) :
    totalBytes size items = totalBytes size' others := by
  induction h with
  | nil => rfl
  | cons hab _ ih => rw [totalBytes, totalBytes, hab, ih]

theorem totalBytes_map (size : α → Int) (f : β → α) (others : List β) :
    totalBytes size (others.map f) = totalBytes (fun b => size (f b)) others := by
  induction others with
  | nil => rfl
  | cons b rest ih => rw [List.map_cons, totalBytes, totalBytes, ih]

end

/-! ## Tensors that are live at one step -/

/-- Whether the plan has a range for the tensor that contains the step. -/
def LivenessPlan.liveAt (plan : LivenessPlan) (id : TensorId) (step : Nat) : Bool :=
  (plan.range? id).any (·.liveAt step)

/-- A packed tensor has as many bytes as its size says. -/
theorem Placement.exists_bytes {p : Placement} (h : 0 ≤ p.parcel.size) :
    ∃ bytes : Finset Int, bytes.card = p.parcel.size ∧
      ∀ b, b ∈ bytes ↔ p.offset ≤ b ∧ b < p.stop := by
  refine ⟨Finset.Ico p.offset p.stop, ?_, fun b => Finset.mem_Ico⟩
  rw [Int.card_Ico, stop]
  omega

/-- The tensors that are live at one step have as many bytes to themselves as they have together. -/
theorem LowestPlaced.exists_bytes {placed : List Placement} (h : LowestPlaced placed)
    (hsize : ∀ p ∈ placed, 0 ≤ p.parcel.size) (step : Nat) :
    ∃ bytes : Finset Int,
      bytes.card = totalBytes (·.parcel.size) (placed.filter (·.parcel.live.liveAt step)) ∧
      ∀ b ∈ bytes, ∃ p ∈ placed, p.parcel.live.liveAt step = true ∧ p.offset ≤ b ∧ b < p.stop := by
  induction h with
  | nil => exact ⟨∅, rfl, nofun⟩
  | @cons p placed hp _ ih =>
    obtain ⟨hnonneg, hrest⟩ := List.forall_mem_cons.1 hsize
    obtain ⟨bytes, hcard, hbytes⟩ := ih hrest
    have hthere : ∀ b ∈ bytes, ∃ q ∈ p :: placed,
        q.parcel.live.liveAt step = true ∧ q.offset ≤ b ∧ b < q.stop := by
      intro b hb
      obtain ⟨q, hq, hbyte⟩ := hbytes b hb
      exact ⟨q, List.mem_cons_of_mem _ hq, hbyte⟩
    by_cases hlive : p.parcel.live.liveAt step = true
    · obtain ⟨own, hown, hmem⟩ := Placement.exists_bytes hnonneg
      -- All bytes of the new tensor are new.
      have hdisjoint : Disjoint own bytes := by
        rw [Finset.disjoint_left]
        intro b hb hold
        obtain ⟨hstart, hstop⟩ := (hmem b).1 hb
        obtain ⟨q, hq, hqlive, hqstart, hqstop⟩ := hbytes b hold
        have hoverlap := LiveRange.overlaps_of_liveAt hqlive hlive
        have hend : q.stop ≤ b := hp.free.2 q hq hoverlap b hstart hstop hqstart
        omega
      refine ⟨own.disjUnion bytes hdisjoint, ?_, ?_⟩
      · rw [Finset.card_disjUnion, List.filter_cons_of_pos (by simpa using hlive), totalBytes,
          ← hcard, ← hown, Int.natCast_add]
      · intro b hb
        rcases Finset.mem_disjUnion.1 hb with hb | hb
        · exact ⟨p, List.mem_cons_self, hlive, (hmem b).1 hb⟩
        · exact hthere b hb
    · refine ⟨bytes, ?_, hthere⟩
      rw [List.filter_cons_of_neg (by simpa using hlive)]
      exact hcard

/-! ## The size of the arena -/

namespace Arena

variable {a b : Arena} {parcel : Parcel} {parcels : List Parcel}

/-- One more tensor makes the arena larger by its own size at most. -/
theorem size_place_le (ha : a.Packed) (hparcel : 0 ≤ parcel.size) (h : a.place parcel = .ok b) :
    b.size ≤ a.size + parcel.size := by
  obtain ⟨offset, hoffset, rfl⟩ := place_eq_ok h
  obtain ⟨-, -, horigin⟩ := lowestFit_spec (a.busy_sorted parcel) hoffset
  have hle : offset ≤ a.size := by
    rcases horigin with rfl | hend
    · exact ha.size_nonneg
    · obtain ⟨r, hr, rfl⟩ := hend
      obtain ⟨q, hq, -, rfl⟩ := mem_busy.1 hr
      exact ha.stop_le q hq
  dsimp only
  omega

/-- The arena is not larger than all tensors together. -/
theorem size_le_of_pack (hnonneg : ∀ p ∈ parcels, 0 ≤ p.size) (h : pack parcels = .ok a) :
    a.size ≤ totalBytes (·.parcel.size) a.placements := by
  have hinvariant : a.Packed ∧ a.size ≤ totalBytes (·.parcel.size) a.placements := by
    refine Computation.foldlM_invariant (s := empty) (P := fun a => a.Packed ∧
      a.size ≤ totalBytes (·.parcel.size) a.placements) ?_ ⟨packed_empty, Int.le_refl _⟩ h
    intro s t p hp hs ht
    obtain ⟨hpacked, hle⟩ := hs
    have hsize := hnonneg p ((List.mergeSort_perm parcels _).mem_iff.1 hp)
    have hgrowth := size_place_le hpacked hsize ht
    refine ⟨hpacked.place ht, ?_⟩
    obtain ⟨offset, -, rfl⟩ := place_eq_ok ht
    dsimp only [totalBytes] at hgrowth ⊢
    omega
  exact hinvariant.2

/-- The arena is large enough for the tensors that are live at a step to lie side by side. -/
theorem Greedy.live_le_size (ha : a.Greedy) (hpacked : a.Packed) (step : Nat) :
    totalBytes (·.parcel.size) (a.placements.filter (·.parcel.live.liveAt step)) ≤ a.size := by
  obtain ⟨bytes, hcard, hbytes⟩ := ha.lowest.exists_bytes ha.size_nonneg step
  have hwithin : bytes ⊆ Finset.Ico 0 a.size := by
    intro b hb
    obtain ⟨p, hp, -, hstart, hstop⟩ := hbytes b hb
    exact Finset.mem_Ico.2 ⟨Int.le_trans (hpacked.offset_nonneg p hp) hstart,
      Int.lt_of_lt_of_le hstop (hpacked.stop_le p hp)⟩
  have hle := Finset.card_le_card hwithin
  rw [Int.card_Ico] at hle
  have hnonneg := hpacked.size_nonneg
  omega

/-- Placed tensors have the sizes of the tensors they are placements of. -/
theorem totalBytes_of_placed {plan : LivenessPlan} {items : List (Tensor × Int64)}
    {placed : List Placement}
    (hof : List.Forall₂ (fun s parcel => parcel.IsOf plan s) items parcels)
    (hperm : (placed.map Placement.parcel).Perm parcels) :
    totalBytes (·.parcel.size) placed = totalBytes (·.2.toInt) items := by
  rw [← totalBytes_map Parcel.size Placement.parcel, totalBytes_perm hperm]
  exact (totalBytes_congr (hof.imp fun s parcel h => h.size.symm)).symm

/-- The arena takes no more bytes than all tensors one after the other, and no less than those that
are live at any one step. -/
theorem pack_size_bounds {plan : LivenessPlan} {items : List (Tensor × Int64)}
    (hnonneg : ∀ s ∈ items, 0 ≤ s.2.toInt)
    (hparcels : (items.mapM fun s => parcelOf plan s.1 s.2) = .ok parcels)
    (hpack : pack parcels = .ok a) :
    a.size ≤ totalBytes (·.2.toInt) items ∧
      ∀ step, totalBytes (·.2.toInt) (items.filter fun s => plan.liveAt s.1.id step) ≤ a.size := by
  have hof := Parcel.isOf_of_mapM hparcels
  have hsizes := Parcel.size_nonneg_of_isOf hof hnonneg
  obtain ⟨hpacked, hperm⟩ := pack_eq_ok hpack
  refine ⟨?_, ?_⟩
  · rw [← totalBytes_of_placed hof hperm]
    exact size_le_of_pack hsizes hpack
  · intro step
    have hlive : List.Forall₂ (fun s parcel => parcel.IsOf plan s)
        (items.filter fun s => plan.liveAt s.1.id step) (parcels.filter (·.live.liveAt step)) := by
      refine List.rel_filter ?_ hof
      intro s parcel h
      simp [LivenessPlan.liveAt, h.live]
    have hplaced := hperm.filter (·.live.liveAt step)
    rw [List.filter_map] at hplaced
    rw [← totalBytes_of_placed hlive hplaced]
    exact (greedy_of_pack hsizes hpack).live_le_size hpacked step

/-- The three results take 112 bytes together and at most 96 at once. -/
theorem pack_size_bounds_threeResults :
    totalBytes (·.2.toInt) threeResults = 112 ∧
      totalBytes (·.2.toInt) (threeResults.filter fun s => threePlan.liveAt s.1.id 1) = 96 ∧
      threeArena.size ≤ 112 ∧ 96 ≤ threeArena.size := by
  have htotal : totalBytes (·.2.toInt) threeResults = 112 := by decide +kernel
  have hlive : totalBytes (·.2.toInt) (threeResults.filter fun s => threePlan.liveAt s.1.id 1) =
      96 := by decide +kernel
  have hbounds := pack_size_bounds (by decide +kernel) parcels_threeResults pack_threeResults
  refine ⟨htotal, hlive, ?_, ?_⟩
  · rw [← htotal]
    exact hbounds.1
  · rw [← hlive]
    exact hbounds.2 1

end Arena

end TensorLowering
