/-!
# Tensor axes

The five dimensions a tensor can have. An axis is known to a reader by its letter
(`Axis.letter`).
-/

namespace TensorLowering

/-- The identity of one tensor dimension. -/
inductive Axis where
  /-- Batch. -/
  | n
  /-- Channel. -/
  | c
  /-- Height. -/
  | h
  /-- Width. -/
  | w
  /-- Sequence or time step. -/
  | t
  deriving DecidableEq, Repr

namespace Axis

/-- Every axis, in the order in which reports list them. -/
def all : List Axis := [n, c, h, w, t]

/-- The letter an axis is written with. -/
def letter : Axis → Char
  | n => 'N'
  | c => 'C'
  | h => 'H'
  | w => 'W'
  | t => 'T'

/-- The letter as a text of its own. -/
def text (a : Axis) : String := String.singleton a.letter

/-- The axis written with a letter, if there is one. -/
def ofLetter? (letter : Char) : Option Axis := all.find? (·.letter == letter)

end Axis

end TensorLowering
