import TensorLowering.Error.Fault
import TensorLowering.Error.Subject

/-!
# What can go wrong

Lowering stops at the first failure. A `LoweringError` is a cause: which rule was broken and on
which subject. Its full text is `LoweringError.message`. A computation that can fail is a
`Lowering`.
-/

namespace TensorLowering

/-- Every failure lowering can report. -/
inductive LoweringError where
  | shapeMismatch (subject : Subject) (fault : ShapeFault)
  | unsupported (subject : Subject) (fault : ConfigurationFault)
  | axisNotFound (axis : Axis) (order : Order)
  | symbolConflict (label : String) (bound requested : Int64)
  | operatorReapplied (operator : String)
  | notAllocated (tensor : Nat)
  | unknownRole (role : String) (registered : List String)
  | unknownTensor (id : Nat)
  | unknownOperator (id : Nat)
  | unknownSymbol (id : Nat)
  | invalidGraph (fault : GraphFault)
  | unresolvedObligation (operator check : String)
  | duplicateKernel (entry : String)
  deriving DecidableEq, Repr

/-- The full text of an error. -/
def LoweringError.message : LoweringError → String
  | shapeMismatch subject fault =>
    "shape mismatch in " ++ subject.text ++ ": " ++ fault.describe
  | unsupported subject fault =>
    "unsupported configuration in " ++ subject.text ++ ": " ++ fault.describe
  | axisNotFound axis order =>
    "axis " ++ axis.text ++ " not found in order " ++ order.text
  | symbolConflict label bound requested =>
    "placeholder '" ++ label ++ "' is already bound to " ++ toString bound.toInt
      ++ ", cannot rebind to " ++ toString requested.toInt
  | operatorReapplied operator => "operator " ++ operator ++ " has already been applied"
  | notAllocated tensor =>
    "variable v" ++ toString tensor ++ " is not registered in the memory layout"
  | unknownRole role registered =>
    "template references unregistered buffer role '" ++ role ++ "' (registered: ["
      ++ ", ".intercalate registered ++ "])"
  | unknownTensor id => "unknown variable handle v" ++ toString id
  | unknownOperator id => "unknown operator handle op" ++ toString id
  | unknownSymbol id => "unknown placeholder handle $" ++ toString id
  | invalidGraph fault => "invalid graph: " ++ fault.describe
  | unresolvedObligation operator check =>
    "unresolved shape obligation in " ++ operator ++ ": " ++ check
  | duplicateKernel entry => "duplicate kernel entry name '" ++ entry ++ "'"

/-! ## Computations -/

/-- A computation of the lowering: a result, or the first failure. -/
abbrev Lowering (α : Type) := Except LoweringError α

/-- A successful pass over a list has one result for each element. -/
theorem Lowering.length_of_mapM {α β : Type} {f : α → Lowering β} {items : List α}
    {results : List β} (h : items.mapM f = .ok results) : results.length = items.length := by
  induction items generalizing results with
  | nil =>
    cases h
    rfl
  | cons a rest ih =>
    rw [List.mapM_cons] at h
    cases ha : f a with
    | error e =>
      rw [ha] at h
      cases h
    | ok b =>
      rw [ha] at h
      cases hrest : rest.mapM f with
      | error e =>
        rw [hrest] at h
        cases h
      | ok bs =>
        rw [hrest] at h
        cases h
        rw [List.length_cons, List.length_cons, ih hrest]

end TensorLowering
