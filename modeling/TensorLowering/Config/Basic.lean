/-!
# Settings of the lowering

The knobs of allocation and code generation, with their usual values.
-/

namespace TensorLowering

/-- Whether a word is a power of two. -/
def isPowerOfTwo (n : UInt64) : Bool := n.toNat == 1 <<< n.toNat.log2

/-- The settings of one lowering. -/
structure Config where
  /-- Every offset and size is a multiple of this; a power of two. -/
  alignment : UInt64
  /-- Whether an obligation that is still open stops the lowering. -/
  strict : Bool
  /-- Whether a finished layout is checked for overlaps. -/
  verifyLayout : Bool
  deriving DecidableEq, Repr

/-- The settings used where none are given. -/
def Config.standard : Config := ⟨16, false, true⟩

theorem isPowerOfTwo_iff {n : UInt64} : isPowerOfTwo n = true ↔ n.toNat.isPowerOfTwo := by
  rw [isPowerOfTwo, beq_iff_eq, Nat.one_shiftLeft]
  constructor
  · intro h
    exact ⟨_, h⟩
  · rintro ⟨k, hk⟩
    rw [hk, Nat.log2_two_pow]

end TensorLowering
