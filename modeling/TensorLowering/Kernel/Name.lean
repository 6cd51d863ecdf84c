import TensorLowering.Operator.Basic
import TensorLowering.Template.Basic

/-!
# Entry names of kernels

A kernel is called after the kind, the name and the handle of its operator, joined by underscores.
User-supplied text is made an identifier first (`sanitized`); the handle keeps names apart where
operators share a name.
-/

namespace TensorLowering

/-- A name in capitals as lower-case words joined by underscores: an upper-case letter after a
lower-case one begins a word. -/
def snakeCase (afterLower : Bool) : List Char → List Char
  | [] => []
  | ch :: rest =>
    if ch.isUpper then
      let word := ch.toLower :: snakeCase false rest
      if afterLower then '_' :: word else word
    else ch :: snakeCase ch.isLower rest

/-- The text as part of an identifier: everything but ASCII letters and digits becomes an
underscore, and an empty text a word of its own. -/
def sanitized (text : String) : String :=
  if text.isEmpty then "op"
  else String.ofList (text.toList.map fun ch => if ch.isAlphanum then ch else '_')

/-- The entry name of a kernel. -/
structure KernelName where
  text : String
  deriving DecidableEq, Repr

namespace KernelName

/-- The name of the kernel of an operator. -/
def ofOperator (op : Operator) : KernelName :=
  ⟨String.ofList (snakeCase false op.kind.name.toList) ++ "_" ++ sanitized op.name ++ "_"
    ++ toString op.id⟩

/-- The name with a suffix, for operators that need several kernels. -/
def withSuffix (n : KernelName) (suffix : String) : KernelName :=
  ⟨n.text ++ "_" ++ sanitized suffix⟩

/-- The template with the function name filled in. -/
def fill (n : KernelName) (t : Template) : Template :=
  t.map fun segment =>
    match segment with
    | .functionName => .literal n.text
    | other => other

end KernelName

end TensorLowering
