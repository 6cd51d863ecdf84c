import TensorLowering.Config.Basic
import TensorLowering.Graph.Check
import TensorLowering.Kernel.Dispatch
import TensorLowering.Layout.Allocate
import TensorLowering.Layout.Check

/-!
# Programs

A graph is lowered to a `Program`: its kernels in the order of the schedule, the layout they were
generated against, and the shape obligations that nobody could decide yet. Lowering checks the
graph first, then the obligations, and then lays out memory and emits kernels (`Graph.lower`).
-/

namespace TensorLowering

/-- A lowered graph. -/
structure Program where
  kernels : List Kernel
  layout : Layout
  /-- The obligations to be checked before the program runs. -/
  preconditions : List String
  staticBytes : String
  dynamicBytes : String
  deriving DecidableEq, Repr

/-- The obligations that are open under a table, as preconditions. A strict lowering stops at the
first. -/
def preconditions (strict : Bool) (t : SymbolTable) :
    List (Operator × Obligation) → Lowering (List String)
  | [] => pure []
  | (op, obligation) :: rest => do
    if ← obligation.check op.label t then
      preconditions strict t rest
    else
      let check := obligation.render t
      if strict then
        throw (.unresolvedObligation op.label check)
      let others ← preconditions strict t rest
      pure ((op.label ++ ": " ++ check) :: others)

/-- The kernels of a list of operators; no two may have one entry name. -/
def Graph.kernels (g : Graph) (l : Layout) : List String → List OperatorId → Lowering (List Kernel)
  | _, [] => pure []
  | taken, id :: rest => do
    let op ← g.operator id
    let k ← g.kernel l op
    if taken.contains k.entry then
      throw (.duplicateKernel k.entry)
    let others ← g.kernels l (k.entry :: taken) rest
    pure (k :: others)

/-- Lowers a graph. -/
def Graph.lower (g : Graph) (config : Config) : Lowering Program := do
  g.check
  let undecided ← preconditions config.strict g.symbols g.pending
  let s ← g.schedule
  let layout ← g.allocate (s.liveness g) config
  if config.verifyLayout then
    g.checkLayout layout
  let kernels ← g.kernels layout [] s.ordered
  pure ⟨kernels, layout, undecided, g.symbols.render (layout.totalSize .static),
    g.symbols.render (layout.totalSize .dynamic)⟩

namespace Program

/-- The declarations that stand before the kernels. -/
def header : String :=
  "/* kernelforge webassembly module */\n"
    ++ "static unsigned char *static_buffer;\n"
    ++ "static unsigned char *dynamic_buffer;\n"
    ++ "\n"
    ++ "void kernelforge_bind_buffers(unsigned char *static_ptr, unsigned char *dynamic_ptr)\n"
    ++ "\x7b\n"
    ++ "    static_buffer = static_ptr;\n"
    ++ "    dynamic_buffer = dynamic_ptr;\n"
    ++ "\x7d\n"

/-- The whole source: the declarations, then every kernel. -/
def source (p : Program) : String := header ++ String.join (p.kernels.map Kernel.source)

end Program

end TensorLowering
