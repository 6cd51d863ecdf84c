import TensorLowering.Obligation
import TensorLowering.Proofs.Symbol.Extension

/-!
# Open and met obligations

An obligation is met when its relation holds of the values of its extents
(`Obligation.check_eq_true_iff`), and a met obligation stays met in every larger table
(`Obligation.check_eq_true_of_extends`). Settling a list succeeds when no obligation of the list is
violated, and keeps exactly the open ones, in order (`Obligation.settle_eq_ok_iff`).
-/

namespace TensorLowering

/-- The extents that a relation compares. -/
def Relation.extents : Relation → List Extent
  | equal lhs rhs => [lhs, rhs]
  | positive extent => [extent]

/-- The relation holds of the values of its extents, which are all known. -/
def Relation.Holds (t : SymbolTable) : Relation → Prop
  | equal lhs rhs => ∃ x, t.Evaluates lhs x ∧ t.Evaluates rhs x
  | positive extent => ∃ x, t.Evaluates extent x ∧ 0 < x

/-- A relation that holds goes on holding when more is known. -/
theorem Relation.Holds.extends {r : Relation} {t u : SymbolTable} (h : t.Extends u)
    (hr : r.Holds t) : r.Holds u := by
  cases r with
  | equal lhs rhs =>
    obtain ⟨x, hl, hr⟩ := hr
    exact ⟨x, h.evaluates hl, h.evaluates hr⟩
  | positive extent =>
    obtain ⟨x, he, hx⟩ := hr
    exact ⟨x, h.evaluates he, hx⟩

namespace Obligation

variable {o : Obligation} {operator : String} {t u : SymbolTable} {label : String}

/-- Whether an obligation is still open under a table. -/
def isOpen (operator : String) (t : SymbolTable) (o : Obligation) : Bool :=
  match o.check operator t with
  | .ok false => true
  | _ => false

/-- The obligation is met or open, but not violated. -/
def Tenable (operator : String) (t : SymbolTable) (o : Obligation) : Prop :=
  ∃ met, o.check operator t = .ok met

theorem isOpen_iff : o.isOpen operator t = true ↔ o.check operator t = .ok false := by
  unfold isOpen
  split
  · next h => simp [h]
  · next h => simpa using h

/-- An obligation that is not violated is open unless it is met. -/
theorem Tenable.isOpen_eq_false_iff (h : o.Tenable operator t) :
    o.isOpen operator t = false ↔ o.check operator t = .ok true := by
  obtain ⟨met, h⟩ := h
  cases met <;> simp [isOpen, h]

/-! ## Checking -/

/-- An obligation is met exactly when its relation holds. -/
theorem check_eq_true_iff : o.check operator t = .ok true ↔ o.relation.Holds t := by
  unfold check
  cases o.relation with
  | equal lhs rhs =>
    simp only [Computation.bind_eq_ok, Relation.Holds, SymbolTable.Evaluates]
    constructor
    · rintro ⟨a, ha, b, hb, h⟩
      split at h
      · next x y =>
        split at h
        · next hxy => exact ⟨x, ha, hxy ▸ hb⟩
        · cases h
      · cases h
    · rintro ⟨x, ha, hb⟩
      exact ⟨some x, ha, some x, hb, by simp [pure, Except.pure]⟩
  | positive extent =>
    simp only [Computation.bind_eq_ok, Relation.Holds, SymbolTable.Evaluates]
    constructor
    · rintro ⟨a, ha, h⟩
      split at h
      · next x =>
        split at h
        · cases h
        · next hx => exact ⟨x, ha, Int64.not_le.1 hx⟩
      · cases h
    · rintro ⟨x, ha, hx⟩
      exact ⟨some x, ha, by simp [Int64.not_le.2 hx, pure, Except.pure]⟩

/-- A met obligation stays met. -/
theorem check_eq_true_of_extends (h : t.Extends u) (hm : o.check operator t = .ok true) :
    o.check operator u = .ok true :=
  check_eq_true_iff.2 ((check_eq_true_iff.1 hm).extends h)

/-- A new symbol does not change the outcome of a check. -/
theorem check_create {met : Bool} (h : o.check operator t = .ok met) :
    o.check operator (t.create label) = .ok met := by
  obtain ⟨description, relation⟩ := o
  unfold check at h ⊢
  cases relation with
  | equal lhs rhs =>
    simp only [Computation.bind_eq_ok] at h ⊢
    obtain ⟨a, ha, b, hb, h⟩ := h
    refine ⟨a, SymbolTable.evaluate_create ha, b, SymbolTable.evaluate_create hb, ?_⟩
    split at h
    · split at h
      · next hxy => simpa [hxy] using h
      · cases h
    · exact h
  | positive extent =>
    simp only [Computation.bind_eq_ok] at h ⊢
    obtain ⟨a, ha, h⟩ := h
    refine ⟨a, SymbolTable.evaluate_create ha, ?_⟩
    split at h
    · split at h
      · cases h
      · next hx => simpa [hx] using h
    · exact h

/-- An obligation that is not violated is met, unless an extent that it compares waits for a
symbol. -/
theorem Tenable.holds_of_ne_none (h : o.Tenable operator t)
    (hclosed : ∀ a ∈ o.relation.extents, t.evaluate a ≠ .ok none) : o.relation.Holds t := by
  obtain ⟨met, hmet⟩ := h
  cases met with
  | true => exact check_eq_true_iff.1 hmet
  | false =>
    unfold check at hmet
    split at hmet
    · next lhs rhs heq =>
      obtain ⟨a?, ha, hmet⟩ := Computation.bind_eq_ok.1 hmet
      obtain ⟨b?, hb, hmet⟩ := Computation.bind_eq_ok.1 hmet
      cases a? with
      | none => exact absurd ha (hclosed lhs (by simp [heq, Relation.extents]))
      | some x =>
        cases b? with
        | none => exact absurd hb (hclosed rhs (by simp [heq, Relation.extents]))
        | some y =>
          dsimp only at hmet
          split at hmet
          · cases hmet
          · cases hmet
    · next extent heq =>
      obtain ⟨a?, ha, hmet⟩ := Computation.bind_eq_ok.1 hmet
      cases a? with
      | none => exact absurd ha (hclosed extent (by simp [heq, Relation.extents]))
      | some x =>
        dsimp only at hmet
        split at hmet
        · cases hmet
        · cases hmet

/-- Under a complete table an obligation that is not violated is met. -/
theorem Tenable.holds (h : o.Tenable operator t) (ht : t.Complete) : o.relation.Holds t :=
  h.holds_of_ne_none fun a _ => ht.evaluate_ne_none a

/-! ## Settling -/

/-- Settling succeeds when nothing is violated, and then keeps the open obligations in order. -/
theorem settle_eq_ok_iff {os pending : List Obligation} :
    settle operator t os = .ok pending ↔
      (∀ o ∈ os, o.Tenable operator t) ∧ pending = os.filter (isOpen operator t) := by
  induction os generalizing pending with
  | nil => simp [settle, pure, Except.pure, eq_comm]
  | cons o rest ih =>
    simp only [settle, Computation.bind_eq_ok, Computation.pure_eq_ok, ih, List.mem_cons,
      forall_eq_or_imp]
    constructor
    · rintro ⟨met, hmet, _, ⟨hrest, rfl⟩, rfl⟩
      refine ⟨⟨⟨met, hmet⟩, hrest⟩, ?_⟩
      cases met <;> simp [isOpen, hmet]
    · rintro ⟨⟨⟨met, hmet⟩, hrest⟩, rfl⟩
      refine ⟨met, hmet, _, ⟨hrest, rfl⟩, ?_⟩
      cases met <;> simp [isOpen, hmet]

/-- What is open in a larger table was open before. -/
theorem isOpen_of_extends (h : t.Extends u) (ho : o.Tenable operator t)
    (hu : o.isOpen operator u = true) : o.isOpen operator t = true := by
  by_contra hnot
  have hmet := check_eq_true_of_extends h (ho.isOpen_eq_false_iff.1 (Bool.eq_false_iff.2 hnot))
  rw [isOpen_iff, hmet] at hu
  cases hu

/-- Settling in two stages, under a table and then under a larger one, is settling under the larger
one. -/
theorem filter_isOpen_filter {os : List Obligation} (h : t.Extends u)
    (hos : ∀ o ∈ os, o.Tenable operator t) :
    (os.filter (isOpen operator t)).filter (isOpen operator u) = os.filter (isOpen operator u) := by
  rw [List.filter_filter]
  refine List.filter_congr fun o ho => ?_
  cases hu : o.isOpen operator u with
  | false => simp
  | true => simpa using isOpen_of_extends h (hos o ho) hu

end Obligation

end TensorLowering
