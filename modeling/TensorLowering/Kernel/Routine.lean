import TensorLowering.Kernel.Code
import TensorLowering.Template.Basic

/-!
# Kernel routines

A `Routine` is a kernel before it is tied to an operator: the parameters it reads from its roles,
and the code that uses them. Every parameter `P` of a family `f` loads the role `f_P`
(`Routine.role`).
-/

namespace TensorLowering

/-- What a parameter of a routine holds. -/
inductive ParameterKind where
  /-- An array that is read. -/
  | source
  /-- An array that is written. -/
  | target
  /-- A number. -/
  | integer
  deriving DecidableEq, Repr

/-- A parameter of a routine. -/
structure Parameter where
  kind : ParameterKind
  name : String
  deriving DecidableEq, Repr

/-- The declaration of a parameter, up to its value. -/
def Parameter.declaration (p : Parameter) : String :=
  match p.kind with
  | .source => "const float *" ++ p.name
  | .target => "float *" ++ p.name
  | .integer => "const int " ++ p.name

/-- A family of kernels with the same code. -/
structure Routine where
  family : String
  parameters : List Parameter
  body : Code
  deriving DecidableEq, Repr

namespace Routine

/-- The role that a parameter loads. -/
def role (r : Routine) (name : String) : String := r.family ++ "_" ++ name

/-- The lines that load the parameters. -/
def parameterSegments (r : Routine) : List Segment :=
  r.parameters.flatMap fun p =>
    [.literal (Code.indentation 1 ++ p.declaration ++ " = "), .load (r.role p.name),
      .literal ";\n"]

/-- The template of the routine: its head, its parameters, an empty line and its code. -/
def template (r : Routine) : Template :=
  .ofSegments
    ([.literal "\nvoid ", .functionName, .literal "(const int * ", .metaBuffer,
        .literal ")\n\x7b\n"]
      ++ r.parameterSegments ++ [.literal ("\n" ++ r.body.render 1 ++ "\x7d\n")])

end Routine

end TensorLowering
