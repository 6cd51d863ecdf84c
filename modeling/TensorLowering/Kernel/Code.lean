import TensorLowering.Text.Parentheses

/-!
# Kernel code

The statements of a kernel body, as data: integer and float declarations, counted loops, early
continuation, and reads and writes of float arrays. A `Code` value is a sequence of statements;
`Code.render` writes it as C source, with four spaces for each level of nesting.
-/

namespace TensorLowering

/-! ## Expressions -/

/-- The integer operations of kernel code. -/
inductive IntOp where
  | add
  | sub
  | mul
  | div
  | rem
  deriving DecidableEq, Repr

namespace IntOp

/-- The operator sign. -/
def sign : IntOp → String
  | add => "+"
  | sub => "-"
  | mul => "*"
  | div => "/"
  | rem => "%"

/-- How tightly the operator binds. -/
def precedence : IntOp → Nat
  | add | sub => 1
  | mul | div | rem => 2

end IntOp

/-- An integer expression. -/
inductive IntExpr where
  | var (name : String)
  | lit (n : Nat)
  | binary (op : IntOp) (lhs rhs : IntExpr)
  deriving DecidableEq, Repr

namespace IntExpr

instance : Add IntExpr := ⟨binary .add⟩
instance : Sub IntExpr := ⟨binary .sub⟩
instance : Mul IntExpr := ⟨binary .mul⟩
instance : Div IntExpr := ⟨binary .div⟩
instance : Mod IntExpr := ⟨binary .rem⟩
instance : Coe String IntExpr := ⟨var⟩

/-- How tightly the outermost construct binds. -/
def precedence : IntExpr → Nat
  | binary op _ _ => op.precedence
  | _ => 3

/-- The expression as source. -/
def render : IntExpr → String
  | var name => name
  | lit n => toString n
  | binary op lhs rhs =>
    parenthesized (lhs.precedence < op.precedence) lhs.render
      ++ " " ++ op.sign ++ " "
      ++ parenthesized (rhs.precedence ≤ op.precedence) rhs.render

end IntExpr

/-- A condition on integers. -/
inductive Condition where
  | less (lhs rhs : IntExpr)
  | atLeast (lhs rhs : IntExpr)
  | differs (lhs rhs : IntExpr)
  | either (first second : Condition)
  deriving DecidableEq, Repr

/-- The condition as source. -/
def Condition.render : Condition → String
  | less lhs rhs => lhs.render ++ " < " ++ rhs.render
  | atLeast lhs rhs => lhs.render ++ " >= " ++ rhs.render
  | differs lhs rhs => lhs.render ++ " != " ++ rhs.render
  | either first second => first.render ++ " || " ++ second.render

/-- An element of a float array. -/
structure Cell where
  array : String
  index : IntExpr
  deriving DecidableEq, Repr

/-- The element as source. -/
def Cell.render (c : Cell) : String := c.array ++ "[" ++ c.index.render ++ "]"

/-- A float that a declaration starts from. -/
inductive FloatExpr where
  | zero
  | product (lhs rhs : Cell)
  deriving DecidableEq, Repr

/-- The float as source. -/
def FloatExpr.render : FloatExpr → String
  | zero => "0.0f"
  | product lhs rhs => lhs.render ++ " * " ++ rhs.render

/-! ## Statements -/

/-- How a loop writes its step of one; the two spellings mean the same. -/
inductive Increment where
  | operator
  | assignment
  deriving DecidableEq, Repr

/-- The step of a loop as source. -/
def Increment.render (counter : String) : Increment → String
  | operator => counter ++ "++"
  | assignment => counter ++ " += 1"

/-- A sequence of statements. -/
inductive Code where
  | done
  /-- An empty line. -/
  | blank (rest : Code)
  /-- Declares an integer, constant or not. -/
  | int (constant : Bool) (name : String) (value : IntExpr) (rest : Code)
  /-- Declares a float. -/
  | float (name : String) (value : FloatExpr) (rest : Code)
  /-- Goes on with the next round of the loop around it when the condition holds. -/
  | skipIf (condition : Condition) (rest : Code)
  /-- Runs the body with the counter at 0, 1, … below the bound. -/
  | loop (counter bound : String) (increment : Increment) (body rest : Code)
  /-- Adds the product of two elements to a float. -/
  | accumulate (name : String) (lhs rhs : Cell) (rest : Code)
  /-- Writes a float to an element. -/
  | store (cell : Cell) (name : String) (rest : Code)
  deriving DecidableEq, Repr

namespace Code

/-- The white space before a statement. -/
def indentation (depth : Nat) : String := String.ofList (List.replicate (4 * depth) ' ')

/-- One line of source. -/
def line (depth : Nat) (text : String) : String := indentation depth ++ text ++ "\n"

/-- The statements as source, at a level of nesting. -/
def render (depth : Nat) : Code → String
  | done => ""
  | blank rest => "\n" ++ rest.render depth
  | int constant name value rest =>
    line depth ((if constant then "const int " else "int ") ++ name ++ " = " ++ value.render ++ ";")
      ++ rest.render depth
  | float name value rest =>
    line depth ("float " ++ name ++ " = " ++ value.render ++ ";") ++ rest.render depth
  | skipIf condition rest =>
    line depth ("if (" ++ condition.render ++ ") continue;") ++ rest.render depth
  | loop counter bound increment body rest =>
    line depth ("for (int " ++ counter ++ " = 0; " ++ counter ++ " < " ++ bound ++ "; "
        ++ increment.render counter ++ ") \x7b")
      ++ body.render (depth + 1) ++ line depth "\x7d" ++ rest.render depth
  | accumulate name lhs rhs rest =>
    line depth (name ++ " += " ++ lhs.render)
      ++ line depth ("     * " ++ rhs.render ++ ";") ++ rest.render depth
  | store cell name rest =>
    line depth (cell.render ++ " = " ++ name ++ ";") ++ rest.render depth

end Code

end TensorLowering
