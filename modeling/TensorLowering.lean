import TensorLowering.Axis
import TensorLowering.Order.Basic
import TensorLowering.Word
import TensorLowering.Storage
import TensorLowering.Extent.Basic
import TensorLowering.Extent.Printer
import TensorLowering.Error.Subject
import TensorLowering.Error.Fault
import TensorLowering.Error.Basic
import TensorLowering.Order.Literal
import TensorLowering.Symbol.Table
import TensorLowering.Shape.Basic
import TensorLowering.Obligation
import TensorLowering.Tensor.Basic
import TensorLowering.Operator.Kind
import TensorLowering.Operator.Rule
import TensorLowering.Operator.Basic
import TensorLowering.Graph.Basic
import TensorLowering.Graph.Apply
import TensorLowering.Graph.Printer
import TensorLowering.Schedule.Basic
import TensorLowering.Schedule.Build
import TensorLowering.Schedule.Check
import TensorLowering.Liveness
import TensorLowering.Graph.Check
import TensorLowering.Text.Blank
import TensorLowering.Config.Basic
import TensorLowering.Config.Environment
import TensorLowering.Layout.Basic
import TensorLowering.Layout.Arena
import TensorLowering.Layout.Allocate
import TensorLowering.Layout.Check
import TensorLowering.Template.Basic
import TensorLowering.Template.Parser
import TensorLowering.Kernel.Name
import TensorLowering.Kernel.Role
import TensorLowering.Kernel.Basic
import TensorLowering.Kernel.Code
import TensorLowering.Kernel.Routine
import TensorLowering.Kernel.AxiswiseScale
import TensorLowering.Kernel.Deconvolution
import TensorLowering.Kernel.Dispatch
import TensorLowering.Text.Parentheses
import TensorLowering.Json.Basic
import TensorLowering.Program.Basic
import TensorLowering.Program.Manifest
import TensorLowering.Tensor.View
import TensorLowering.Execution.Basic
import TensorLowering.Execution.AxiswiseScale
import TensorLowering.Execution.Deconvolution
import TensorLowering.Execution.Run
import TensorLowering.Graph.Script
import TensorLowering.Kernel.Semantics
import TensorLowering.Proofs.Computation
import TensorLowering.Proofs.Symbol.Evaluation
import TensorLowering.Proofs.Symbol.Extension
import TensorLowering.Proofs.Symbol.Product
import TensorLowering.Proofs.Obligation
import TensorLowering.Proofs.Graph.Step
import TensorLowering.Proofs.Graph.Growth
import TensorLowering.Proofs.Graph.Obligations
import TensorLowering.Proofs.Program
import TensorLowering.Proofs.Layout.Arena
import TensorLowering.Proofs.Layout.Size
import TensorLowering.Proofs.Layout.Tiling
import TensorLowering.Proofs.Layout.Tail
import TensorLowering.Proofs.Layout.Regions
import TensorLowering.Proofs.Layout.Separation
import TensorLowering.Proofs.Layout.Safety
import TensorLowering.Proofs.Layout.Sign
import TensorLowering.Proofs.Layout.Binding
import TensorLowering.Proofs.Graph.Narrowing
import TensorLowering.Proofs.Graph.Producers
import TensorLowering.Proofs.Graph.Consumers
import TensorLowering.Proofs.Schedule.Queue
import TensorLowering.Proofs.Schedule.Depth
import TensorLowering.Proofs.Schedule.Check
import TensorLowering.Proofs.Graph.Check
import TensorLowering.Proofs.Shape
import TensorLowering.Proofs.Rule
import TensorLowering.Proofs.Execution.Coordinates
import TensorLowering.Proofs.Execution.View
import TensorLowering.Proofs.Execution.Run
import TensorLowering.Proofs.Execution.Access
import TensorLowering.Proofs.Execution.Operators
import TensorLowering.Proofs.Execution.Totality
import TensorLowering.Proofs.Liveness
import TensorLowering.Proofs.Schedule.Liveness
import TensorLowering.Proofs.Memory.Basic
import TensorLowering.Proofs.Memory.Machine
import TensorLowering.Proofs.Memory.Refinement
import TensorLowering.Proofs.Kernel.Filling
import TensorLowering.Proofs.Kernel.Routine
import TensorLowering.Proofs.Text.Clear
import TensorLowering.Proofs.Kernel.Rendering
import TensorLowering.Proofs.Kernel.EntryName
import TensorLowering.Proofs.Kernel.References
import TensorLowering.Proofs.Kernel.Roles
import TensorLowering.Proofs.Kernel.Source
import TensorLowering.Proofs.Kernel.Emission
import TensorLowering.Proofs.Kernel.Specialisation
import TensorLowering.Proofs.Kernel.AxiswiseScale
import TensorLowering.Proofs.Kernel.Deconvolution
import TensorLowering.Proofs.Kernel.Literals
import TensorLowering.Proofs.Kernel.Range
import TensorLowering.Proofs.Kernel.Correctness
import TensorLowering.Proofs.Symbol.Occurrence
import TensorLowering.Proofs.Graph.Agreement
import TensorLowering.Proofs.Graph.Interleaving
import TensorLowering.Proofs.Graph.History
import TensorLowering.Proofs.Symbol.Failure
import TensorLowering.Proofs.Template.Token
import TensorLowering.Proofs.Template.Tokenisation
import TensorLowering.Proofs.Kernel.TemplateText
import TensorLowering.Proofs.Transposition.Execution
import TensorLowering.Proofs.Transposition.Graph
import TensorLowering.Proofs.Transposition.View
import TensorLowering.Proofs.Execution.Scatter
import TensorLowering.Proofs.Graph.ResultLength
import TensorLowering.Proofs.Symbol.Exactness
import TensorLowering.Proofs.Extent.Grammar
import TensorLowering.Proofs.Extent.Reading
import TensorLowering.Proofs.Extent.Rendering
import TensorLowering.Proofs.Layout.Alignment
import TensorLowering.Proofs.Layout.LowestFit
import TensorLowering.Proofs.Layout.Usage
import TensorLowering.Proofs.Graph.Application
import TensorLowering.Proofs.Kernel.Recording
import TensorLowering.Proofs.Kernel.History
import TensorLowering.Proofs.Kernel.FirstUse
import TensorLowering.Proofs.Kernel.Reached
import TensorLowering.Proofs.Kernel.Substitution
import TensorLowering.Proofs.Shape.Relabelling
import TensorLowering.Proofs.Execution.Indexing
