import TensorLowering.Word

/-!
# Shape extents

An `Extent` is a literal, a symbol bound later, or a binary operation on extents. `Extent.combine`
is the only constructor the arithmetic uses: it folds two literals when their exact result is a
word (`BinaryOp.eval`) and otherwise applies the identity and absorption laws before it builds a
node. An operation that has no word for its result stays a node, so its failure shows when the
extent is evaluated.
-/

namespace TensorLowering

/-- The index of a symbol in its table. -/
abbrev SymbolId := Nat

/-! ## Operations on words -/

/-- The operations of extent arithmetic. -/
inductive BinaryOp where
  | add
  | sub
  | mul
  | floorDiv
  deriving DecidableEq, Repr

namespace BinaryOp

/-- The operator sign. -/
def sign : BinaryOp → String
  | add => "+"
  | sub => "-"
  | mul => "*"
  | floorDiv => "//"

/-- The exact result on integers. Division rounds toward minus infinity and has no result at
zero. -/
def exact : BinaryOp → Int → Int → Option Int
  | add, a, b => some (a + b)
  | sub, a, b => some (a - b)
  | mul, a, b => some (a * b)
  | floorDiv, a, b => if b = 0 then none else some (a.fdiv b)

/-- The exact result on words, if there is one and a word can hold it. -/
def eval (op : BinaryOp) (a b : Int64) : Option Int64 :=
  (op.exact a.toInt b.toInt).bind word?

theorem eval_eq_some_iff {op : BinaryOp} {a b c : Int64} :
    op.eval a b = some c ↔ op.exact a.toInt b.toInt = some c.toInt := by
  unfold eval
  cases h : op.exact a.toInt b.toInt with
  | none => simp
  | some n => simpa [word?_eq_some_iff] using eq_comm

end BinaryOp

/-! ## Extents and their arithmetic -/

/-- The length of a tensor along one axis, possibly not known yet. -/
inductive Extent where
  | value (n : Int64)
  | symbol (k : SymbolId)
  | binary (op : BinaryOp) (lhs rhs : Extent)
  deriving DecidableEq, Repr

namespace Extent

/-- The literal value, if the extent is one. -/
def asValue : Extent → Option Int64
  | value n => some n
  | _ => none

/-- The symbol, if the extent is one. -/
def asSymbol : Extent → Option SymbolId
  | symbol k => some k
  | _ => none

/-- A parameter given as an unsigned word; its bits are read as a signed word. -/
def ofWord (n : UInt64) : Extent := value n.toInt64

/-- The operation after the identity and absorption laws: zero and one disappear where they do not
change the result, and zero absorbs a product. -/
def simplified : BinaryOp → Extent → Extent → Extent
  | .add, a, b =>
    if a = value 0 then b else if b = value 0 then a else binary .add a b
  | .sub, a, b =>
    if b = value 0 then a else binary .sub a b
  | .mul, a, b =>
    if a = value 1 then b else if b = value 1 then a
    else if a = value 0 ∨ b = value 0 then value 0 else binary .mul a b
  | .floorDiv, a, b =>
    if b = value 1 then a else binary .floorDiv a b

/-- The operation on two extents: a literal where both are literals and the result is a word, else
the simplified node. -/
def combine (op : BinaryOp) : Extent → Extent → Extent
  | value a, value b =>
    match op.eval a b with
    | some c => value c
    | none => simplified op (value a) (value b)
  | a, b => simplified op a b

instance : Add Extent := ⟨combine .add⟩
instance : Sub Extent := ⟨combine .sub⟩
instance : Mul Extent := ⟨combine .mul⟩

/-- Division that rounds toward minus infinity. -/
def floorDiv (a b : Extent) : Extent := combine .floorDiv a b

/-- The product of a list of extents, taken from the left; the element count of a shape. -/
def product (extents : List Extent) : Extent := extents.foldl (· * ·) (value 1)

/-- The next multiple of `alignment`; an alignment of one or less asks for nothing. -/
def alignUp (a : Extent) (alignment : Int64) : Extent :=
  if alignment ≤ 1 then a
  else (a + value (alignment - 1)).floorDiv (value alignment) * value alignment

/-! ## Symbols -/

/-- Every occurrence of a symbol, from left to right. -/
def occurrences : Extent → List SymbolId
  | value _ => []
  | symbol k => [k]
  | binary _ lhs rhs => lhs.occurrences ++ rhs.occurrences

/-- The symbols of an extent, each once, by first occurrence. -/
def symbols (a : Extent) : List SymbolId := a.occurrences.eraseDups

theorem mem_symbols {a : Extent} {k : SymbolId} : k ∈ a.symbols ↔ k ∈ a.occurrences := by
  simp [symbols]

theorem asValue_eq_some_iff {a : Extent} {n : Int64} : a.asValue = some n ↔ a = value n := by
  cases a <;> simp [asValue]

end Extent

end TensorLowering
