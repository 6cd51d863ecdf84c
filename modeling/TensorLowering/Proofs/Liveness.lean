import Mathlib.Data.List.Nodup
import TensorLowering.Liveness

/-!
# Live ranges cover what they have to

A tensor is live from the step that produces it (`Schedule.first_liveRange`) through every step that
reads it (`Schedule.le_last_of_consumer`). Steps are positions in the schedule, so an operator that
stands after a number of others is run at the step of that number (`Schedule.stepOf?_eq`), and the
other way round (`Schedule.exists_split`).
-/

namespace TensorLowering

/-- A running maximum is not below its start, nor below anything it has passed. -/
theorem le_foldl_max {items : List Nat} {low n : Nat} (h : n ≤ low ∨ n ∈ items) :
    n ≤ items.foldl max low := by
  induction items generalizing low with
  | nil => exact h.resolve_right List.not_mem_nil
  | cons m rest ih =>
    refine ih ?_
    rcases h with h | h
    · exact .inl (Nat.le_trans h (Nat.le_max_left _ _))
    · rcases List.mem_cons.1 h with rfl | h
      · exact .inl (Nat.le_max_right _ _)
      · exact .inr h

/-- A running maximum is its start or something it has passed. -/
theorem foldl_max_eq_or_mem (items : List Nat) (low : Nat) :
    items.foldl max low = low ∨ items.foldl max low ∈ items := by
  induction items generalizing low with
  | nil => exact .inl rfl
  | cons n rest ih =>
    rw [List.foldl_cons]
    rcases ih (max low n) with heq | hmem
    · rw [heq, List.mem_cons]
      omega
    · exact .inr (List.mem_cons_of_mem _ hmem)

/-- Ranges that contain a common step overlap. -/
theorem LiveRange.overlaps_of_liveAt {a b : LiveRange} {step : Nat} (ha : a.liveAt step = true)
    (hb : b.liveAt step = true) : a.overlaps b = true := by
  unfold liveAt at ha hb
  unfold overlaps
  simp only [Bool.and_eq_true, decide_eq_true_eq] at ha hb ⊢
  omega

namespace Schedule

variable {s : Schedule} {done rest : List OperatorId} {o : OperatorId} {x : Tensor} {k : Nat}

/-! ## Steps -/

/-- An operator is run at the step of its position. -/
theorem stepOf?_eq (hs : s.ordered = done ++ o :: rest) (hfresh : o ∉ done) :
    s.stepOf? o = some done.length := by
  rw [stepOf?, hs, List.idxOf?_eq_some_iff]
  refine ⟨by simp, by simp, fun j hj => ?_⟩
  rw [List.getElem_append_left hj]
  exact fun heq => hfresh (by simpa using heq ▸ List.getElem_mem hj)

/-- An operator that has run was run at an earlier step. -/
theorem stepOf?_lt (hs : s.ordered = done ++ rest) (ho : o ∈ done) :
    ∃ k < done.length, s.stepOf? o = some k := by
  obtain ⟨before, after, rfl, hfresh⟩ := List.eq_append_cons_of_mem ho
  rw [List.append_assoc, List.cons_append] at hs
  exact ⟨before.length, by simp, stepOf?_eq hs hfresh⟩

/-- The operators before a step are as many as its number says. -/
theorem exists_split (h : s.stepOf? o = some k) :
    ∃ before after, s.ordered = before ++ o :: after ∧ before.length = k := by
  obtain ⟨hk, ho, -⟩ := List.idxOf?_eq_some_iff.1 h
  refine ⟨s.ordered.take k, s.ordered.drop (k + 1), ?_, List.length_take_of_le (Nat.le_of_lt hk)⟩
  rw [← ho, List.getElem_cons_drop, List.take_append_drop]

theorem stepOf?_lt_steps (h : s.stepOf? o = some k) : k < s.steps := by
  obtain ⟨hk, -⟩ := List.idxOf?_eq_some_iff.1 h
  exact hk

theorem exists_step (h : o ∈ s.ordered) : ∃ k, s.stepOf? o = some k := by
  obtain ⟨before, after, hs, hfresh⟩ := List.eq_append_cons_of_mem h
  exact ⟨_, stepOf?_eq hs hfresh⟩

/-! ## Ranges -/

/-- A tensor is live from the step that produces it. -/
theorem first_liveRange (hx : x.producer = some o) (ho : s.stepOf? o = some k) :
    (s.liveRange x).first = k := by
  simp [liveRange, hx, ho]

/-- A live range does not end before it begins. -/
theorem first_le_last (s : Schedule) (x : Tensor) :
    (s.liveRange x).first ≤ (s.liveRange x).last := by
  simp only [liveRange]
  split
  · exact Nat.le_max_right _ _
  · exact le_foldl_max (.inl (Nat.le_refl _))

/-- A tensor that is not an output is kept up to the last step that reads it. -/
theorem last_liveRange (hrole : x.role ≠ .output) :
    (s.liveRange x).last =
      (x.consumers.filterMap s.stepOf?).foldl max (s.liveRange x).first := by
  unfold liveRange
  cases h : x.role with
  | output => exact absurd h hrole
  | _ => rfl

/-- A tensor is live through every step that reads it. -/
theorem le_last_of_consumer (ho : o ∈ x.consumers) (hk : s.stepOf? o = some k) :
    k ≤ (s.liveRange x).last := by
  simp only [liveRange]
  split
  · have hlt := stepOf?_lt_steps hk
    rw [lastStep]
    omega
  · exact le_foldl_max (.inr (List.mem_filterMap.2 ⟨o, ho, hk⟩))

end Schedule

end TensorLowering
