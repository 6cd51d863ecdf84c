import TensorLowering.Layout.Arena
import TensorLowering.Proofs.Computation

/-!
# The arena keeps live tensors apart

The lowest fit is an offset at which a stretch of bytes meets none of the busy ranges it was given
in order (`lowestFit_spec`). Placing one more tensor this way keeps an arena packed
(`Arena.Packed.place`): tensors that are live together share no byte, and all stay within the size
of the arena. So a whole packing is packed, and it holds every parcel it was given
(`Arena.pack_eq_ok`).
-/

namespace TensorLowering

/-! ## The lowest fit -/

/-- Ranges come in order of their starts, and of their ends where they start together. -/
theorem rangeBefore_iff {a b : Int × Int} :
    rangeBefore a b = true ↔ a.1 < b.1 ∨ a.1 = b.1 ∧ a.2 ≤ b.2 := by
  unfold rangeBefore
  split
  · next hne => simp [hne]
  · next heq =>
    have heq : a.1 = b.1 := by simpa using heq
    simp [heq]

theorem rangeBefore_trans (a b c : Int × Int) (hab : rangeBefore a b = true)
    (hbc : rangeBefore b c = true) : rangeBefore a c = true := by
  rw [rangeBefore_iff] at *
  omega

theorem rangeBefore_total (a b : Int × Int) : (rangeBefore a b || rangeBefore b a) = true := by
  rw [Bool.or_eq_true, rangeBefore_iff, rangeBefore_iff]
  omega

/-- A range that comes before another starts no later. -/
theorem start_le_of_rangeBefore {a b : Int × Int} (h : rangeBefore a b = true) : a.1 ≤ b.1 := by
  rw [rangeBefore_iff] at h
  omega

/-- The lowest fit is not below the candidate, meets no busy range, and is the candidate itself or
the end of a busy range. -/
theorem lowestFit_spec {size : Int} {busy : List (Int × Int)} {candidate offset : Int}
    (hsorted : busy.Pairwise fun a b => a.1 ≤ b.1)
    (h : lowestFit size busy candidate = .ok offset) :
    candidate ≤ offset ∧ (∀ r ∈ busy, offset + size ≤ r.1 ∨ r.2 ≤ offset) ∧
      (offset = candidate ∨ ∃ r ∈ busy, offset = r.2) := by
  induction busy generalizing candidate with
  | nil =>
    cases h
    exact ⟨Int.le_refl _, nofun, .inl rfl⟩
  | cons r busy ih =>
    obtain ⟨start, stop⟩ := r
    obtain ⟨hstart, hsorted⟩ := List.pairwise_cons.1 hsorted
    obtain ⟨reach, hreach, h⟩ := Computation.bind_eq_ok.1 h
    obtain ⟨-, rfl⟩ := addBytes_eq_ok_iff.1 hreach
    split at h
    · next hfits =>
      cases h
      refine ⟨Int.le_refl _, fun r hr => .inl ?_, .inl rfl⟩
      rcases List.mem_cons.1 hr with rfl | hr
      · exact hfits
      · exact Int.le_trans hfits (hstart r hr)
    · obtain ⟨hle, hfree, horigin⟩ := ih hsorted h
      refine ⟨by omega, fun r hr => ?_, ?_⟩
      · rcases List.mem_cons.1 hr with rfl | hr
        · exact .inr (by dsimp only; omega)
        · exact hfree r hr
      · rcases horigin with horigin | ⟨r, hr, horigin⟩
        · rcases Int.le_total stop candidate with hmax | hmax
          · exact .inl (horigin.trans (Int.max_eq_left hmax))
          · exact .inr ⟨_, List.mem_cons_self, horigin.trans (Int.max_eq_right hmax)⟩
        · exact .inr ⟨r, List.mem_cons_of_mem _ hr, horigin⟩

/-! ## Packed arenas -/

/-- Tensors that are live together share no byte, and all tensors lie between zero and the size of
the arena, at multiples of every number that all sizes are multiples of. -/
structure Arena.Packed (a : Arena) : Prop where
  size_nonneg : 0 ≤ a.size
  offset_nonneg : ∀ p ∈ a.placements, 0 ≤ p.offset
  stop_le : ∀ p ∈ a.placements, p.stop ≤ a.size
  apart : ∀ p ∈ a.placements, ∀ q ∈ a.placements, p.parcel.tensor ≠ q.parcel.tensor →
    p.parcel.live.overlaps q.parcel.live = true → p.stop ≤ q.offset ∨ q.stop ≤ p.offset
  multiple : ∀ d : Int, (∀ p ∈ a.placements, d ∣ p.parcel.size) →
    d ∣ a.size ∧ ∀ p ∈ a.placements, d ∣ p.offset

namespace Arena

variable {a b : Arena} {parcel : Parcel}

theorem packed_empty : empty.Packed :=
  ⟨Int.le_refl _, nofun, nofun, nofun, fun d _ => ⟨Int.dvd_zero d, nofun⟩⟩

theorem mem_busy {r : Int × Int} :
    r ∈ a.busy parcel ↔
      ∃ p ∈ a.placements, p.parcel.live.overlaps parcel.live = true ∧ (p.offset, p.stop) = r := by
  simp [busy, and_assoc]

theorem busy_sorted (a : Arena) (parcel : Parcel) :
    (a.busy parcel).Pairwise fun r s => r.1 ≤ s.1 :=
  (List.pairwise_mergeSort rangeBefore_trans rangeBefore_total _).imp start_le_of_rangeBefore

/-- A parcel is placed at an offset that is free while it is live. -/
theorem place_eq_ok (h : a.place parcel = .ok b) :
    ∃ offset, lowestFit parcel.size (a.busy parcel) 0 = .ok offset ∧
      b = ⟨⟨parcel, offset⟩ :: a.placements, max a.size (offset + parcel.size)⟩ := by
  obtain ⟨offset, hoffset, h⟩ := Computation.bind_eq_ok.1 h
  obtain ⟨stop, hstop, h⟩ := Computation.bind_eq_ok.1 h
  obtain ⟨-, rfl⟩ := addBytes_eq_ok_iff.1 hstop
  cases h
  exact ⟨offset, hoffset, rfl⟩

/-- Placing one more tensor keeps an arena packed. -/
theorem Packed.place (ha : a.Packed) (h : a.place parcel = .ok b) : b.Packed := by
  obtain ⟨offset, hoffset, rfl⟩ := place_eq_ok h
  obtain ⟨hnonneg, hfree, horigin⟩ := lowestFit_spec (a.busy_sorted parcel) hoffset
  have hnew : ∀ q ∈ a.placements, q.parcel.live.overlaps parcel.live = true →
      offset + parcel.size ≤ q.offset ∨ q.stop ≤ offset :=
    fun q hq hlive => hfree _ (mem_busy.2 ⟨q, hq, hlive, rfl⟩)
  refine ⟨Int.le_trans ha.size_nonneg (Int.le_max_left _ _), ?_, ?_, ?_, fun d hd => ?_⟩
  · exact List.forall_mem_cons.2 ⟨hnonneg, ha.offset_nonneg⟩
  · refine List.forall_mem_cons.2 ⟨Int.le_max_right _ _, fun p hp => ?_⟩
    exact Int.le_trans (ha.stop_le p hp) (Int.le_max_left _ _)
  · intro p hp q hq hne hlive
    rcases List.mem_cons.1 hp with rfl | hp <;> rcases List.mem_cons.1 hq with rfl | hq
    · exact absurd rfl hne
    · rw [LiveRange.overlaps_comm] at hlive
      exact hnew q hq hlive
    · exact (hnew p hp hlive).symm
    · exact ha.apart p hp q hq hne hlive
  · obtain ⟨hparcel, hrest⟩ := List.forall_mem_cons.1 hd
    obtain ⟨hsize, hoffsets⟩ := ha.multiple d hrest
    -- The lowest fit is zero or the end of a tensor that is there.
    have hoff : d ∣ offset := by
      rcases horigin with rfl | ⟨r, hr, rfl⟩
      · exact Int.dvd_zero d
      · obtain ⟨p, hp, -, rfl⟩ := mem_busy.1 hr
        exact Int.dvd_add (hoffsets p hp) (hrest p hp)
    refine ⟨?_, List.forall_mem_cons.2 ⟨hoff, hoffsets⟩⟩
    rcases Int.le_total (offset + parcel.size) a.size with hmax | hmax
    · rw [Int.max_eq_left hmax]
      exact hsize
    · rw [Int.max_eq_right hmax]
      exact Int.dvd_add hoff hparcel

/-- Every parcel that was placed comes in front of those that were there. -/
theorem parcels_of_foldlM {items : List Parcel} (h : items.foldlM Arena.place a = .ok b) :
    b.placements.map Placement.parcel =
      items.reverse ++ a.placements.map Placement.parcel := by
  induction items generalizing a with
  | nil =>
    cases h
    rfl
  | cons parcel rest ih =>
    obtain ⟨m, hm, hrest⟩ := Computation.foldlM_cons_eq_ok.1 h
    have hparcels := ih hrest
    obtain ⟨offset, -, rfl⟩ := place_eq_ok hm
    simp [hparcels]

/-- A packing holds the parcels in the order in which they are placed, latest first. -/
theorem parcels_of_pack {parcels : List Parcel} (h : pack parcels = .ok a) :
    a.placements.map Placement.parcel = (parcels.mergeSort Parcel.precedes).reverse := by
  rw [parcels_of_foldlM h]
  simp [empty]

/-- A packing is packed and holds exactly the parcels it was given. -/
theorem pack_eq_ok {parcels : List Parcel} (h : pack parcels = .ok a) :
    a.Packed ∧ (a.placements.map Placement.parcel).Perm parcels := by
  refine ⟨Computation.foldlM_invariant (fun s t parcel _ hs ht => hs.place ht) packed_empty h, ?_⟩
  rw [parcels_of_pack h]
  exact (List.reverse_perm _).trans (List.mergeSort_perm parcels _)

/-- The offset of a packed tensor is that of its placement, when no tensor is packed twice. -/
theorem offset?_of_mem {parcels : List Parcel} (h : pack parcels = .ok a)
    (hnodup : (parcels.map Parcel.tensor).Nodup) {p : Placement} (hp : p ∈ a.placements) :
    a.offset? p.parcel.tensor = some p.offset := by
  have hkeys : (a.placements.map (·.parcel.tensor)).Nodup := by
    have hperm := (pack_eq_ok h).2.map Parcel.tensor
    rw [List.map_map] at hperm
    exact hperm.nodup_iff.2 hnodup
  rw [offset?, Computation.find?_key hkeys hp]
  rfl

/-- Every parcel has a placement, at which its tensor is found. -/
theorem exists_placement {parcels : List Parcel} (h : pack parcels = .ok a)
    (hnodup : (parcels.map Parcel.tensor).Nodup) (hparcel : parcel ∈ parcels) :
    ∃ p ∈ a.placements, p.parcel = parcel ∧ a.offset? parcel.tensor = some p.offset := by
  obtain ⟨p, hp, rfl⟩ := List.mem_map.1 ((pack_eq_ok h).2.mem_iff.2 hparcel)
  exact ⟨p, hp, rfl, offset?_of_mem h hnodup hp⟩

end Arena

end TensorLowering
