import TensorLowering.Kernel.Code

/-!
# Running kernel code

What kernel code computes. Integers are unbounded, division and remainder round toward zero, and
floats are of any type with a zero, a sum and a product. Arrays that are read stay as they are; the
elements that are written are collected in the order in which they are written (`Code.run`).
-/

namespace TensorLowering

/-! ## Integers -/

/-- The result of an integer operation. -/
def IntOp.apply : IntOp → Int → Int → Int
  | add, a, b => a + b
  | sub, a, b => a - b
  | mul, a, b => a * b
  | div, a, b => a.tdiv b
  | rem, a, b => a.tmod b

/-- The value of an integer expression. -/
def IntExpr.eval (ints : String → Int) : IntExpr → Int
  | var name => ints name
  | lit n => n
  | binary op lhs rhs => op.apply (lhs.eval ints) (rhs.eval ints)

section
variable (ints : String → Int) (a b : IntExpr)

@[simp] theorem IntExpr.eval_var (name : String) : (var name).eval ints = ints name := rfl

@[simp] theorem IntExpr.eval_lit (n : Nat) : (lit n).eval ints = n := rfl

@[simp] theorem IntExpr.eval_add : (a + b).eval ints = a.eval ints + b.eval ints := rfl

@[simp] theorem IntExpr.eval_sub : (a - b).eval ints = a.eval ints - b.eval ints := rfl

@[simp] theorem IntExpr.eval_mul : (a * b).eval ints = a.eval ints * b.eval ints := rfl

@[simp] theorem IntExpr.eval_div : (a / b).eval ints = (a.eval ints).tdiv (b.eval ints) := rfl

@[simp] theorem IntExpr.eval_rem : (a % b).eval ints = (a.eval ints).tmod (b.eval ints) := rfl

end

/-- Whether a condition holds. -/
def Condition.holds (ints : String → Int) : Condition → Bool
  | less lhs rhs => lhs.eval ints < rhs.eval ints
  | atLeast lhs rhs => rhs.eval ints ≤ lhs.eval ints
  | differs lhs rhs => lhs.eval ints ≠ rhs.eval ints
  | either first second => first.holds ints || second.holds ints

/-! ## States -/

/-- An element written by a kernel. -/
structure Write (α : Type) where
  array : String
  index : Int
  value : α
  deriving DecidableEq, Repr

/-- The variables of a running kernel, and what it has written. -/
structure KernelState (α : Type) where
  ints : String → Int
  floats : String → α
  writes : List (Write α)

/-- A valuation with one name set. -/
def assigned {β : Type} (values : String → β) (name : String) (value : β) : String → β :=
  fun other => if other = name then value else values other

theorem assigned_self {β : Type} (values : String → β) (name : String) (value : β) :
    assigned values name value name = value := by
  simp [assigned]

theorem assigned_of_ne {β : Type} (values : String → β) {name other : String} (value : β)
    (h : other ≠ name) : assigned values name value other = values other := by
  simp [assigned, h]

section
variable {α : Type}

namespace KernelState

/-- The state with an integer set. -/
def setInt (s : KernelState α) (name : String) (value : Int) : KernelState α :=
  { s with ints := assigned s.ints name value }

/-- The state with a float set. -/
def setFloat (s : KernelState α) (name : String) (value : α) : KernelState α :=
  { s with floats := assigned s.floats name value }

/-- The state with an element written. -/
def write (s : KernelState α) (array : String) (index : Int) (value : α) : KernelState α :=
  { s with writes := s.writes ++ [⟨array, index, value⟩] }

end KernelState

/-! ## Statements -/

/-- The element that a cell reads. -/
def Cell.load (arrays : String → Int → α) (ints : String → Int) (c : Cell) : α :=
  arrays c.array (c.index.eval ints)

/-- The value of a float expression. -/
def FloatExpr.eval [Zero α] [Mul α] (arrays : String → Int → α) (ints : String → Int) :
    FloatExpr → α
  | zero => 0
  | product lhs rhs => lhs.load arrays ints * rhs.load arrays ints

/-- The state after a sequence of statements. A condition that holds ends the sequence, which goes
on with the next round of the loop around it. -/
def Code.run [Zero α] [Add α] [Mul α] (arrays : String → Int → α) :
    Code → KernelState α → KernelState α
  | done, s => s
  | blank rest, s => rest.run arrays s
  | int _ name value rest, s => rest.run arrays (s.setInt name (value.eval s.ints))
  | float name value rest, s => rest.run arrays (s.setFloat name (value.eval arrays s.ints))
  | skipIf condition rest, s => if condition.holds s.ints then s else rest.run arrays s
  | loop counter bound _ body rest, s =>
    rest.run arrays ((List.range (s.ints bound).toNat).foldl
      (fun s (i : Nat) => body.run arrays (s.setInt counter i)) s)
  | accumulate name lhs rhs rest, s =>
    rest.run arrays (s.setFloat name
      (s.floats name + lhs.load arrays s.ints * rhs.load arrays s.ints))
  | store cell name rest, s =>
    rest.run arrays (s.write cell.array (cell.index.eval s.ints) (s.floats name))

end

end TensorLowering
