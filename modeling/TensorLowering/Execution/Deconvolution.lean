import TensorLowering.Execution.Basic
import TensorLowering.Operator.Kind

/-!
# Executing a deconvolution

An element of the result is a sum of products of input elements and weights. Which products, and in
which order they are added, is a list of index pairs (`Deconvolution.taps`): over the window's rows,
then its columns, then the input channels.
-/

namespace TensorLowering

namespace Deconvolution

variable {α : Type}

/-- The input coordinate whose window reaches a result coordinate at a window position, if there
is one. Stride and padding are read as signed words. -/
def sourceIndex? (out : Nat) (tap : Nat) (stride padding : UInt64) (extent : Nat) : Option Int :=
  let step := stride.toInt64.toInt
  let shifted := (out : Int) + padding.toInt64.toInt - (tap : Int)
  if shifted < 0 ∨ shifted.tmod step ≠ 0 then none
  else if shifted.tdiv step < (extent : Int) then some (shifted.tdiv step)
  else none

/-- The window positions along one axis that reach a result coordinate, each with the input
coordinate it reads. -/
def sources (window : Nat) (out : Nat) (stride padding : UInt64) (extent : Nat) :
    List (Nat × Int) :=
  (List.range window).filterMap fun tap =>
    (sourceIndex? out tap stride padding extent).map (tap, ·)

/-- The flat index of an input element. A row or column below zero is read without its sign, which
makes it a word beyond the end of every array. -/
def dataIndex (data : View) (n c1 : Nat) (h1 w1 : Int) : Int :=
  if h1 < 0 ∨ w1 < 0 then -1
  else n * data.stride .n + c1 * data.stride .c + h1 * data.stride .h + w1 * data.stride .w

/-- The flat index of a weight. -/
def weightIndex (weights : View) (c2 c1 kh kw : Nat) : Int :=
  c2 * weights.stride .n + c1 * weights.stride .c + kh * weights.stride .h
    + kw * weights.stride .w

/-- The flat indices into data and weights whose products make up one element of the result, in
the order in which they are added. -/
def taps (p : Deconvolution) (data weights : View) (n c2 h2 w2 : Nat) : List (Int × Int) :=
  (sources p.ksize.h.toNat h2 p.stride.h p.padding.h (data.extent .h)).flatMap fun (kh, h1) =>
    (sources p.ksize.w.toNat w2 p.stride.w p.padding.w (data.extent .w)).flatMap fun (kw, w1) =>
      (List.range (data.extent .c)).map fun (c1 : Nat) =>
        (dataIndex data n c1 h1 w1, weightIndex weights c2 c1 kh kw)

/-- The sum of products over a list of index pairs, from the left. -/
def accumulate [Add α] [Mul α] (data weights : Array α) : α → List (Int × Int) → Execution α
  | sum, [] => pure sum
  | sum, (i, j) :: rest => do
    let a ← elementAt data i
    let b ← elementAt weights j
    accumulate data weights (sum + a * b) rest

/-- The result of a deconvolution, element by element. -/
def elements [Zero α] [Add α] [Mul α] (p : Deconvolution) (x w y : View)
    (data weights : Array α) : Execution (Array α) := do
  let result ← (List.range y.size).mapM fun flat => do
    let n ← coordinateIn y flat .n
    let c2 ← coordinateIn y flat .c
    let h2 ← coordinateIn y flat .h
    let w2 ← coordinateIn y flat .w
    accumulate data weights 0 (p.taps x w n c2 h2 w2)
  pure result.toArray

end Deconvolution

end TensorLowering
