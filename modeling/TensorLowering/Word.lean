/-!
# Signed machine words

Extents are 64-bit signed words, and arithmetic on them is exact or refused: an operation is
computed on integers and `word?` then keeps the result only if a word can hold it. `word?` is
pinned down by `word?_eq_some_iff`.
-/

namespace TensorLowering

/-- A signed 64-bit word can hold the integer. -/
def FitsWord (n : Int) : Prop := Int64.minValue.toInt ≤ n ∧ n ≤ Int64.maxValue.toInt

instance (n : Int) : Decidable (FitsWord n) := inferInstanceAs (Decidable (_ ∧ _))

/-- The word for an integer, if one can hold it. -/
def word? (n : Int) : Option Int64 := if FitsWord n then some (Int64.ofInt n) else none

theorem fitsWord_toInt (a : Int64) : FitsWord a.toInt :=
  ⟨a.minValue_le_toInt, a.toInt_le⟩

theorem FitsWord.toInt_ofInt {n : Int} (h : FitsWord n) : (Int64.ofInt n).toInt = n :=
  Int64.toInt_ofInt_of_le h.1 (Int.lt_add_one_of_le h.2)

theorem word?_toInt (a : Int64) : word? a.toInt = some a := by
  simp [word?, fitsWord_toInt]

theorem word?_eq_some_iff {n : Int} {a : Int64} : word? n = some a ↔ a.toInt = n := by
  constructor
  · intro h
    by_cases hn : FitsWord n
    · simp only [word?, hn, if_true, Option.some.injEq] at h
      rw [← h]
      exact hn.toInt_ofInt
    · simp [word?, hn] at h
  · rintro rfl
    exact word?_toInt a

theorem word?_eq_none_iff {n : Int} : word? n = none ↔ ¬ FitsWord n := by
  simp [word?]

end TensorLowering
