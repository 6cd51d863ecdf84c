import TensorLowering.Extent.Basic

/-!
# The grammar of written extents

`Extent.Reads` is the usual reading of an infix text, cut into tokens: `*` and `//` bind tighter
than `+` and `-`, operators that bind alike group to the left, and parentheses group. It is a
relation between tokens and extents, given by the rules of the grammar alone.

The grammar is unambiguous: tokens read as one extent at most (`Extent.Reads.unique`). This is
shown with a reader that goes over the tokens once, from left to right. Between two parentheses it
keeps the sum and the product that wait for their right operands, and whatever the rules read, it
comes to (`Extent.Reads.advances`).
-/

namespace TensorLowering

namespace Extent

/-! ## Tokens and rules -/

/-- The pieces of an infix text. -/
inductive Token where
  | literal (n : Int64)
  | symbol (k : SymbolId)
  | sign (op : BinaryOp)
  | opening
  | closing
  deriving DecidableEq, Repr

/-- What a run of tokens stands for, by the operators that it has outside of parentheses: any, none
but `*` and `//`, or none. -/
inductive Level where
  | sum
  | product
  | operand

/-- Tokens read as an extent. -/
inductive Reads : Level → List Token → Extent → Prop
  | literal (n : Int64) : Reads .operand [.literal n] (value n)
  | symbol (k : SymbolId) : Reads .operand [.symbol k] (symbol k)
  | grouped {ts : List Token} {a : Extent} (h : Reads .sum ts a) :
    Reads .operand (.opening :: ts ++ [.closing]) a
  | operand {ts : List Token} {a : Extent} (h : Reads .operand ts a) : Reads .product ts a
  | multiplied {ts us : List Token} {a b : Extent} {op : BinaryOp}
    (hop : op = .mul ∨ op = .floorDiv) (ha : Reads .product ts a) (hb : Reads .operand us b) :
    Reads .product (ts ++ .sign op :: us) (binary op a b)
  | product {ts : List Token} {a : Extent} (h : Reads .product ts a) : Reads .sum ts a
  | added {ts us : List Token} {a b : Extent} {op : BinaryOp} (hop : op = .add ∨ op = .sub)
    (ha : Reads .sum ts a) (hb : Reads .product us b) :
    Reads .sum (ts ++ .sign op :: us) (binary op a b)

/-- How tightly everything outside of parentheses binds. -/
def Level.tightness : Level → Nat
  | .sum => 1
  | .product => 2
  | .operand => 3

/-- What binds tightly enough for one level does for every looser one. -/
theorem Reads.loosen {level looser : Level} {ts : List Token} {a : Extent}
    (h : Reads level ts a) (hle : looser.tightness ≤ level.tightness) : Reads looser ts a := by
  cases level with
  | operand =>
    cases looser with
    | operand => exact h
    | product => exact h.operand
    | sum => exact h.operand.product
  | product =>
    cases looser with
    | operand => exact absurd hle (by decide)
    | product => exact h
    | sum => exact h.product
  | sum =>
    cases looser with
    | operand => exact absurd hle (by decide)
    | product => exact absurd hle (by decide)
    | sum => exact h

/-! ## A reader -/

/-- A left operand and its operator, while the right operand is being read. -/
abbrev Pending := Option (Extent × BinaryOp)

/-- The operation with its right operand, or the operand alone if nothing waits for it. -/
def Pending.apply : Pending → Extent → Extent
  | none, b => b
  | some (a, op), b => binary op a b

/-- What waits for an operand between two parentheses. -/
structure Frame where
  sum : Pending
  product : Pending

/-- The frame in which nothing waits. -/
def Frame.start : Frame := ⟨none, none⟩

/-- What the frame comes to when it ends after an operand. -/
def Frame.close (frame : Frame) (b : Extent) : Extent := frame.sum.apply (frame.product.apply b)

/-- The frame after an operand and an operator. -/
def Frame.extend (frame : Frame) (b : Extent) (op : BinaryOp) : Frame :=
  match op with
  | .add | .sub => ⟨some (frame.close b, op), none⟩
  | .mul | .floorDiv => ⟨frame.sum, some (frame.product.apply b, op)⟩

theorem Frame.extend_eq_of_sum {frame : Frame} {b : Extent} {op : BinaryOp}
    (hop : op = .add ∨ op = .sub) : frame.extend b op = ⟨some (frame.close b, op), none⟩ := by
  rcases hop with rfl | rfl <;> rfl

theorem Frame.extend_eq_of_product {frame : Frame} {b : Extent} {op : BinaryOp}
    (hop : op = .mul ∨ op = .floorDiv) :
    frame.extend b op = ⟨frame.sum, some (frame.product.apply b, op)⟩ := by
  rcases hop with rfl | rfl <;> rfl

/-- Where the reader is: before an operand or after one, with the frames around it. -/
inductive Reader where
  | before (outer : List Frame) (frame : Frame)
  | after (outer : List Frame) (frame : Frame) (operand : Extent)

/-- The reader one token further. -/
def Reader.step : Reader → Token → Option Reader
  | before outer frame, .literal n => some (after outer frame (value n))
  | before outer frame, .symbol k => some (after outer frame (.symbol k))
  | before outer frame, .opening => some (before (frame :: outer) .start)
  | after outer frame b, .sign op => some (before outer (frame.extend b op))
  | after (frame :: outer) inner b, .closing => some (after outer frame (inner.close b))
  | _, _ => none

/-- The reader after a run of tokens. -/
def Reader.run (reader : Reader) (tokens : List Token) : Option Reader := tokens.foldlM step reader

theorem Reader.run_append {reader next : Reader} {ts us : List Token}
    (h : reader.run ts = some next) : reader.run (ts ++ us) = next.run us := by
  unfold run at h ⊢
  rw [List.foldlM_append, h]
  rfl

theorem Reader.run_cons {reader next : Reader} {token : Token} {ts : List Token}
    (h : reader.step token = some next) : reader.run (token :: ts) = next.run ts := by
  unfold run
  rw [List.foldlM_cons, h]
  rfl

/-! ## Unambiguity -/

/-- Over the tokens of an operand the reader comes to that operand. Over those of a product or a
sum it comes to a last operand, with which what it keeps makes up the product or the sum. -/
def Advances (ts : List Token) (a : Extent) : Level → Prop
  | .operand => ∀ outer frame,
    (Reader.before outer frame).run ts = some (.after outer frame a)
  | .product => ∀ outer sum, ∃ (product : Pending) (b : Extent),
    (Reader.before outer ⟨sum, none⟩).run ts = some (.after outer ⟨sum, product⟩ b) ∧
      product.apply b = a
  | .sum => ∀ outer, ∃ (frame : Frame) (b : Extent),
    (Reader.before outer .start).run ts = some (.after outer frame b) ∧ frame.close b = a

/-- What the rules read, the reader comes to. -/
theorem Reads.advances {level : Level} {ts : List Token} {a : Extent} (h : Reads level ts a) :
    Advances ts a level := by
  induction h with
  | literal n => exact fun outer frame => rfl
  | symbol k => exact fun outer frame => rfl
  | grouped h ih =>
    intro outer frame
    obtain ⟨inner, b, hrun, rfl⟩ := ih (frame :: outer)
    rw [List.cons_append, Reader.run_cons rfl, Reader.run_append hrun]
    rfl
  | operand h ih => exact fun outer sum => ⟨none, _, ih outer ⟨sum, none⟩, rfl⟩
  | multiplied hop ha hb iha ihb =>
    intro outer sum
    obtain ⟨product, x, hrun, rfl⟩ := iha outer sum
    refine ⟨some (product.apply x, _), _, ?_, rfl⟩
    rw [Reader.run_append hrun, Reader.run_cons rfl, Frame.extend_eq_of_product hop]
    exact ihb outer _
  | product h ih =>
    intro outer
    obtain ⟨product, b, hrun, happly⟩ := ih outer none
    exact ⟨⟨none, product⟩, b, hrun, happly⟩
  | added hop ha hb iha ihb =>
    intro outer
    obtain ⟨frame, x, hrun, rfl⟩ := iha outer
    obtain ⟨product, y, hrest, rfl⟩ := ihb outer (some (frame.close x, _))
    refine ⟨⟨some (frame.close x, _), product⟩, y, ?_, rfl⟩
    rw [Reader.run_append hrun, Reader.run_cons rfl, Frame.extend_eq_of_sum hop]
    exact hrest

/-- Tokens read as one extent at most. -/
theorem Reads.unique {ts : List Token} {a b : Extent} (ha : Reads .sum ts a)
    (hb : Reads .sum ts b) : a = b := by
  obtain ⟨frame, x, hx, rfl⟩ := ha.advances []
  obtain ⟨frame', y, hy, rfl⟩ := hb.advances []
  rw [hx, Option.some.injEq, Reader.after.injEq] at hy
  obtain ⟨-, rfl, rfl⟩ := hy
  rfl

end Extent

end TensorLowering
