import Mathlib.Data.List.Perm.Subperm
import TensorLowering.Proofs.Computation
import TensorLowering.Shape.Basic

/-!
# Shapes by position

Looking up an axis in a shape finds the extent at its position (`Shape.extent_eq_ok`,
`Shape.stride_eq_ok`). Relabelling a shape succeeds when the orders hold the same axes, and finds
every axis its old extent (`Shape.relabel_eq_ok`).
-/

namespace TensorLowering

/-- Orders of the same axes are permutations of each other. -/
theorem Order.perm_of_sameAxes {o p : Order} (h : o.sameAxes p = true) : o.axes.Perm p.axes := by
  simp only [sameAxes, Bool.and_eq_true, beq_iff_eq, List.all_eq_true] at h
  obtain ⟨hrank, hall⟩ := h
  have hsubset : o.axes ⊆ p.axes := fun axis haxis => contains_iff.1 (hall axis haxis)
  exact (List.subperm_of_subset o.nodup hsubset).perm_of_length_le (Nat.le_of_eq hrank.symm)

theorem Order.sameAxes_iff_perm {o p : Order} : o.sameAxes p = true ↔ o.axes.Perm p.axes := by
  refine ⟨perm_of_sameAxes, fun h => ?_⟩
  simp only [sameAxes, Bool.and_eq_true, beq_iff_eq, List.all_eq_true]
  exact ⟨h.length_eq, fun axis haxis => contains_iff.2 (h.mem_iff.1 haxis)⟩

namespace Shape

variable {s r : Shape} {subject : Subject} {target : Order} {axis : Axis} {e : Extent}

/-- The extent along an axis stands at its position. -/
theorem extent_eq_ok :
    s.extent axis = .ok e ↔ ∃ i : Nat, s.order.axes[i]? = some axis ∧ s.extents[i]? = some e := by
  have hkeys : s.dimensions.map Prod.fst = s.order.axes :=
    List.map_fst_zip (Nat.le_of_eq s.length_extents.symm)
  unfold extent
  constructor
  · intro h
    split at h
    · next e' hlookup =>
      cases h
      obtain ⟨before, after, hsplit, -⟩ := List.lookup_eq_some_iff.1 hlookup
      have hget : s.dimensions[before.length]? = some (axis, e) := by simp [hsplit]
      exact ⟨_, List.getElem?_zip_eq_some.1 hget⟩
    · cases h
  · rintro ⟨i, haxis, he⟩
    have hentry : (axis, e) ∈ s.dimensions :=
      List.mem_of_getElem? (List.getElem?_zip_eq_some.2 ⟨haxis, he⟩)
    rw [Computation.lookup_of_mem (by rw [hkeys]; exact s.order.nodup) hentry]

/-- An axis has an extent just when it is among those of the order. -/
theorem exists_extent : (∃ e, s.extent axis = .ok e) ↔ axis ∈ s.order.axes := by
  simp only [extent_eq_ok]
  constructor
  · rintro ⟨_, _, haxis, -⟩
    exact List.mem_of_getElem? haxis
  · intro haxis
    obtain ⟨i, hi⟩ := List.getElem?_of_mem haxis
    have hlt : i < s.extents.length := by
      rw [s.length_extents]
      exact (List.getElem?_eq_some_iff.1 hi).1
    exact ⟨_, i, hi, List.getElem?_eq_getElem hlt⟩

/-- Every extent belongs to an axis. -/
theorem exists_axis (he : e ∈ s.extents) : ∃ axis, s.extent axis = .ok e := by
  obtain ⟨i, hi⟩ := List.getElem?_of_mem he
  have hlt : i < s.order.axes.length :=
    Nat.lt_of_lt_of_eq (List.getElem?_eq_some_iff.1 hi).1 s.length_extents
  exact ⟨_, extent_eq_ok.2 ⟨i, List.getElem?_eq_getElem hlt, hi⟩⟩

/-- The stride along an axis is the product of the extents after its position. -/
theorem stride_eq_ok (h : s.stride axis = .ok e) :
    ∃ i : Nat, s.order.axes[i]? = some axis ∧ e = Extent.product (s.extents.drop (i + 1)) := by
  obtain ⟨i, hi, h⟩ := Computation.bind_eq_ok.1 h
  cases h
  refine ⟨i, ?_, rfl⟩
  unfold Order.position at hi
  split at hi
  · next j hindex =>
    cases hi
    obtain ⟨hlt, haxis, -⟩ := List.idxOf?_eq_some_iff.1 hindex
    rw [List.getElem?_eq_getElem hlt, haxis]
  · cases hi

/-- Relabelling puts the extents of the same axes in another order. -/
theorem relabel_eq_ok :
    s.relabel subject target = .ok r ↔
      s.order.sameAxes target = true ∧ r.order = target ∧
        List.Forall₂ (fun axis e => s.extent axis = .ok e) target.axes r.extents := by
  unfold relabel
  constructor
  · intro h
    split at h
    · next hsame =>
      split at h
      · next extents hextents =>
        cases h
        exact ⟨hsame, rfl, Computation.mapM_eq_ok.1 hextents⟩
      · cases h
    · cases h
  · rintro ⟨hsame, horder, hextents⟩
    rw [if_pos hsame]
    obtain ⟨order, extents, hlength⟩ := r
    cases horder
    split
    · next extents' hextents' =>
      cases (Computation.mapM_eq_ok.2 hextents).symm.trans hextents'
      rfl
    · next e he => cases (Computation.mapM_eq_ok.2 hextents).symm.trans he

/-- A shape can be laid out in every order of its axes. -/
theorem exists_relabel (subject : Subject) (h : s.order.axes.Perm target.axes) :
    ∃ r, s.relabel subject target = .ok r := by
  obtain ⟨extents, hextents⟩ := Computation.exists_mapM (f := s.extent) fun axis haxis =>
    exists_extent.2 (h.mem_iff.2 haxis)
  have hextents := Computation.mapM_eq_ok.1 hextents
  exact ⟨⟨target, extents, hextents.length_eq.symm⟩,
    relabel_eq_ok.2 ⟨Order.sameAxes_iff_perm.2 h, rfl, hextents⟩⟩

/-- A relabelled shape has the extents that the shape had. -/
theorem extent_of_relabel (h : s.relabel subject target = .ok r) (haxis : axis ∈ target.axes) :
    r.extent axis = s.extent axis := by
  obtain ⟨-, horder, hextents⟩ := relabel_eq_ok.1 h
  obtain ⟨i, hi⟩ := List.getElem?_of_mem haxis
  obtain ⟨e, he, hs⟩ := Computation.exists_result hextents hi
  rw [hs, extent_eq_ok]
  exact ⟨i, horder ▸ hi, he⟩

/-- A relabelled shape is made of extents that the shape had. -/
theorem mem_of_relabel (h : s.relabel subject target = .ok r) (he : e ∈ r.extents) :
    e ∈ s.extents := by
  obtain ⟨-, -, hextents⟩ := relabel_eq_ok.1 h
  obtain ⟨axis, -, haxis⟩ := Computation.exists_item_of_mem hextents he
  obtain ⟨i, -, hi⟩ := extent_eq_ok.1 haxis
  exact List.mem_of_getElem? hi

end Shape

end TensorLowering
