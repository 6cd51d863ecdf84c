import TensorLowering.Json.Basic
import TensorLowering.Program.Basic

/-!
# Manifests

What a driver reads to size the buffers, fill the metadata and launch the kernels: the JSON form of
layouts, kernels and programs.
-/

namespace TensorLowering

/-! ## Extents and layouts -/

/-- The name of an operation. -/
def BinaryOp.name : BinaryOp → String
  | add => "Add"
  | sub => "Sub"
  | mul => "Mul"
  | floorDiv => "FloorDiv"

/-- An extent as an object with one field, named for its kind. -/
def Extent.json : Extent → Json
  | value n => .object [("Value", .number n.toInt)]
  | symbol k => .object [("Symbol", .number k)]
  | binary op lhs rhs =>
    .object [("Binary", .object [("op", .string op.name), ("lhs", lhs.json), ("rhs", rhs.json)])]

/-- A region. -/
def Allocation.json (a : Allocation) : Json :=
  .object [
    ("variable", .number a.tensor),
    ("name", .string a.name),
    ("space", .string a.space.text),
    ("offset", a.offset.json),
    ("size", a.size.json)]

/-- A layout, with its regions by handle. -/
def Layout.json (l : Layout) : Json :=
  .object [
    ("allocations", .object (l.allocations.map fun a => (toString a.tensor, a.json))),
    ("static_size", l.staticSize.json),
    ("dynamic_size", l.dynamicSize.json),
    ("alignment_bytes", .number l.alignment.toNat)]

/-! ## Kernels and programs -/

/-- A text that may be missing. -/
def Json.ofText? : Option String → Json
  | some s => .string s
  | none => .null

/-- A role in use. -/
def Binding.json (b : Binding) : Json :=
  .object [
    ("role", .string b.role),
    ("variable", .ofText? b.tensor),
    ("space", .ofText? (b.space.map Space.text)),
    ("expression", .string b.expression)]

/-- A metadata slot. -/
def MetadataSlot.json (m : MetadataSlot) : Json :=
  .object [
    ("slot", .number m.slot),
    ("role", .string m.role),
    ("expr", m.extent.json),
    ("rendered", .string m.rendered)]

/-- A kernel. -/
def Kernel.json (k : Kernel) : Json :=
  .object [
    ("entry_name", .string k.entry),
    ("source", .string k.source),
    ("buffers", .array (k.bindings.map Binding.json)),
    ("unresolved_values", .array (k.slots.map MetadataSlot.json))]

/-- The manifest of a program. -/
def Program.manifest (p : Program) : Json :=
  .object [
    ("kernels", .array (p.kernels.map Kernel.json)),
    ("static_buffer_bytes", .string p.staticBytes),
    ("dynamic_buffer_bytes", .string p.dynamicBytes),
    ("runtime_preconditions", .array (p.preconditions.map Json.string))]

end TensorLowering
