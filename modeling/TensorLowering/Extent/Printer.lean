import TensorLowering.Extent.Basic
import TensorLowering.Text.Parentheses

/-!
# Writing extents

Extents are written with the usual conventions: `*` and `//` bind tighter than `+` and `-`, equal
levels group to the left, and parentheses stand where these two rules would read another tree. The
spelling of a symbol is a parameter of `Extent.render`.
-/

namespace TensorLowering

/-- How tightly an operator binds. -/
def BinaryOp.precedence : BinaryOp → Nat
  | add | sub => 1
  | mul | floorDiv => 2

namespace Extent

/-- How tightly the outermost construct binds; literals and symbols bind tightest. -/
def precedence : Extent → Nat
  | binary op _ _ => op.precedence
  | _ => 3

/-- An extent in infix form, with symbols spelled by `label`. -/
def render (label : SymbolId → String) : Extent → String
  | value n => toString n.toInt
  | symbol k => label k
  | binary op lhs rhs =>
    parenthesized (lhs.precedence < op.precedence) (lhs.render label)
      ++ " " ++ op.sign ++ " "
      ++ parenthesized (rhs.precedence ≤ op.precedence) (rhs.render label)

/-- The spelling of a symbol by its index alone. -/
def symbolText (k : SymbolId) : String := "$" ++ toString k

/-- An extent with symbols spelled by index. -/
def text (a : Extent) : String := a.render symbolText

end Extent

end TensorLowering
