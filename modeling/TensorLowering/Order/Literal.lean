import TensorLowering.Error.Basic

/-!
# Orders from axis lists

`Order.ofAxes` accepts exactly the lists without a repeated axis (`firstRepeat?_eq_none_iff`) and
names the first axis that repeats. `Order.position` is the index of an axis as a computation that
can fail.
-/

namespace TensorLowering

/-- The first axis of a list that already stood before it, given the axes seen so far. -/
def firstRepeat? (seen : List Axis) : List Axis → Option Axis
  | [] => none
  | a :: rest => if seen.contains a then some a else firstRepeat? (a :: seen) rest

theorem firstRepeat?_eq_none_iff (axes : List Axis) (seen : List Axis) :
    firstRepeat? seen axes = none ↔ axes.Nodup ∧ ∀ a ∈ axes, a ∉ seen := by
  induction axes generalizing seen with
  | nil => simp [firstRepeat?]
  | cons a rest ih =>
    by_cases h : a ∈ seen
    · simp [firstRepeat?, h]
    · simp only [firstRepeat?, List.contains_eq_mem, decide_eq_true_eq, h, if_false, ih,
        List.nodup_cons, List.mem_cons, forall_eq_or_imp, not_false_eq_true, true_and, not_or]
      constructor
      · rintro ⟨hnd, hseen⟩
        exact ⟨⟨fun ha => (hseen a ha).1 rfl, hnd⟩, fun b hb => (hseen b hb).2⟩
      · rintro ⟨⟨ha, hnd⟩, hseen⟩
        exact ⟨hnd, fun b hb => ⟨fun hba => ha (hba ▸ hb), hseen b hb⟩⟩

namespace Order

/-- The order with the given axes, which must be distinct. -/
def ofAxes (axes : List Axis) : Lowering Order :=
  match h : firstRepeat? [] axes with
  | none => .ok ⟨axes, ((firstRepeat?_eq_none_iff axes []).mp h).1⟩
  | some a => .error (.shapeMismatch .orderLiteral (.repeatedAxis a axes))

/-- The position of an axis, or the report that the order lacks it. -/
def position (o : Order) (a : Axis) : Lowering Nat :=
  match o.index? a with
  | some i => .ok i
  | none => .error (.axisNotFound a o)

end Order

end TensorLowering
