/-!
# Parentheses

Infix text needs parentheses only where an operand binds less tightly than its operator.
-/

namespace TensorLowering

/-- Parentheses around a text, where needed. -/
def parenthesized (needed : Bool) (text : String) : String :=
  if needed then "(" ++ text ++ ")" else text

end TensorLowering
