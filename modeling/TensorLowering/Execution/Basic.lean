import TensorLowering.Tensor.View

/-!
# Reference execution

A graph can be run on host data, operator by operator in schedule order; what the kernels compute
is measured against it. Elements are of any type with a zero, a sum and a product, so the same
definitions serve machine floats and exact numbers. This module holds the data of an execution.

An access outside an array and a division by zero are faults of their own kinds, apart from the
errors that a caller can cause (`ExecutionFault`).
-/

namespace TensorLowering

/-- Why an execution stops. -/
inductive ExecutionFault where
  /-- An error that the graph or the host data explain. -/
  | refused (error : LoweringError)
  /-- An access outside an array. -/
  | outOfBounds (index : Int) (size : Nat)
  /-- A coordinate along an axis without extent. -/
  | zeroDivisor
  deriving DecidableEq, Repr

/-- A computation of the reference execution. -/
abbrev Execution (α : Type) := Except ExecutionFault α

/-- A computation of the lowering as part of an execution. -/
def Execution.ofLowering {α : Type} : Lowering α → Execution α
  | .ok a => .ok a
  | .error e => .error (.refused e)

/-- The data of inputs and weights, by tensor name, flat in the order of the tensor. -/
structure HostData (α : Type) where
  inputs : List (String × Array α)
  weights : List (String × Array α)

/-- The arrays computed so far, by tensor. -/
abbrev Values (α : Type) := List (TensorId × Array α)

/-- The array of a tensor after an execution. -/
def Values.get {α : Type} (values : Values α) (id : TensorId) : Lowering (Array α) :=
  match values.lookup id with
  | some data => .ok data
  | none => .error (.unknownTensor id)

section
variable {α : Type}

/-! ## Reading arrays -/

/-- The element at an index. -/
def elementAt (data : Array α) (index : Int) : Execution α :=
  if index < 0 then .error (.outOfBounds index data.size)
  else
    match data[index.toNat]? with
    | some a => .ok a
    | none => .error (.outOfBounds index data.size)

/-- The coordinate of an element along an axis; extent and stride are divided by. -/
def coordinateIn (v : View) (flat : Nat) (a : Axis) : Execution Nat :=
  if v.dividesByZero a then .error .zeroDivisor else .ok (v.coordinate flat a)

end

end TensorLowering
