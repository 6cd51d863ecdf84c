/-!
# Subjects of errors

What an error is about, as the opening words of its message (`Subject.text`).
-/

namespace TensorLowering

/-- What a failure is about. -/
inductive Subject where
  /-- The literal of an axis order. -/
  | orderLiteral
  /-- A relabelling that belongs to no tensor. -/
  | relabelling
  | tensor (name : String)
  | weight (name : String)
  | symbol (label : String)
  | expression (rendered : String)
  /-- An operator, by its label. -/
  | operator (label : String)
  /-- The parameters of a deconvolution, before there is an operator. -/
  | deconvolution
  | memoryLayout
  /-- A kernel, by its entry name. -/
  | kernel (entry : String)
  deriving DecidableEq, Repr

/-- The subject as it opens a message. -/
def Subject.text : Subject → String
  | orderLiteral => "Order::new"
  | relabelling => "change_order"
  | tensor name => "variable '" ++ name ++ "'"
  | weight name => "weight '" ++ name ++ "'"
  | symbol label => "placeholder '" ++ label ++ "'"
  | expression rendered => "placeholder expression " ++ rendered
  | operator label => label
  | deconvolution => "Deconvolution2D"
  | memoryLayout => "memory layout"
  | kernel entry => entry

end TensorLowering
