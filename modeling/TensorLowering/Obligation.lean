import TensorLowering.Symbol.Table

/-!
# Shape obligations

A rule that cannot be decided while symbols are unbound is kept as an `Obligation` and looked at
again when more is known. `Obligation.check` has three answers: met (`true`), still open
(`false`), or violated (an error). `Obligation.settle` keeps the open ones of a list.
-/

namespace TensorLowering

/-- What an obligation asserts. -/
inductive Relation where
  | equal (lhs rhs : Extent)
  /-- The extent is greater than zero. -/
  | positive (extent : Extent)
  deriving DecidableEq, Repr

/-- A shape relation that has to hold, with the words that name it in reports. -/
structure Obligation where
  description : String
  relation : Relation
  deriving DecidableEq, Repr

namespace Obligation

/-- The obligation that two extents are equal. -/
def equal (description : String) (lhs rhs : Extent) : Obligation := ⟨description, .equal lhs rhs⟩

/-- The obligation that an extent is positive. -/
def positive (description : String) (extent : Extent) : Obligation :=
  ⟨description, .positive extent⟩

/-- Whether an obligation is met; a violated one is an error about the operator it belongs to. -/
def check (o : Obligation) (operator : String) (t : SymbolTable) : Lowering Bool :=
  match o.relation with
  | .equal lhs rhs => do
    let a ← t.evaluate lhs
    let b ← t.evaluate rhs
    match a, b with
    | some x, some y =>
      if x = y then pure true
      else
        throw (.shapeMismatch (.operator operator)
          (.unequal o.description (t.render lhs) x (t.render rhs) y))
    | _, _ => pure false
  | .positive extent => do
    match ← t.evaluate extent with
    | some x =>
      if x ≤ 0 then
        throw (.shapeMismatch (.operator operator)
          (.notPositive o.description (t.render extent) x))
      else pure true
    | none => pure false

/-- The obligation as a line of a report. -/
def render (o : Obligation) (t : SymbolTable) : String :=
  match o.relation with
  | .equal lhs rhs => o.description ++ ": " ++ t.render lhs ++ " == " ++ t.render rhs
  | .positive extent => o.description ++ ": " ++ t.render extent ++ " > 0"

/-- The obligations that are still open, after every one was checked. -/
def settle (operator : String) (t : SymbolTable) : List Obligation → Lowering (List Obligation)
  | [] => pure []
  | o :: rest => do
    let met ← o.check operator t
    let pending ← settle operator t rest
    pure (if met then pending else o :: pending)

end Obligation

end TensorLowering
