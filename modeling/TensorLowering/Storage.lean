/-!
# Roles and memory spaces

A tensor's `Role` says who supplies its contents, and the `Space` is the backing buffer its
contents live in: weights are loaded once into the static buffer, everything else shares the
dynamic one.
-/

namespace TensorLowering

/-- How the contents of a tensor come about. -/
inductive Role where
  | input
  | weight
  | output
  | intermediate
  deriving DecidableEq, Repr

/-- The name of a role in reports. -/
def Role.text : Role → String
  | input => "Input"
  | weight => "Weight"
  | output => "Output"
  | intermediate => "Intermediate"

/-- The remark a graph listing puts after a tensor of this role. -/
def Role.remark : Role → String
  | input => "input"
  | weight => "weight"
  | output => "output"
  | intermediate => "intermediate"

/-- The backing buffer of a region. -/
inductive Space where
  /-- Weights, loaded once when the model is instantiated. -/
  | static
  /-- Inputs, outputs and intermediates. -/
  | dynamic
  deriving DecidableEq, Repr

/-- The name of a space in reports. -/
def Space.text : Space → String
  | static => "Static"
  | dynamic => "Dynamic"

/-- The byte pointer that kernels index into. -/
def Space.pointer : Space → String
  | static => "static_buffer"
  | dynamic => "dynamic_buffer"

end TensorLowering
