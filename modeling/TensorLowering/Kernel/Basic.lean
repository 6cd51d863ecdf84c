import TensorLowering.Kernel.Name
import TensorLowering.Kernel.Role

/-!
# Kernels

A `Kernel` is one emitted function with what a driver needs to launch it: the roles its source
refers to and the metadata to compute.
-/

namespace TensorLowering

/-- An emitted function. -/
structure Kernel where
  entry : String
  source : String
  bindings : List Binding
  slots : List MetadataSlot
  deriving DecidableEq, Repr

/-- The kernel of a template: first the name is filled in, then the roles, and then nothing may be
left. -/
def Kernel.instantiate (t : Template) (name : KernelName) (roles : RoleBinder) : Lowering Kernel :=
  match roles.fill (name.fill t) with
  | (_, .error e) => .error e
  | (after, .ok filled) =>
    if filled.isResolved then .ok ⟨name.text, filled.render, after.bindings, after.slots⟩
    else .error (.unsupported (.kernel name.text) .leftoverTokens)

end TensorLowering
