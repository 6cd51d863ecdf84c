/-!
# Decimal numerals

The digits of a number, and the number that digits spell. A text is read as a number by its digits
alone, with at most a minus sign in front (`integer?`), and every number is read back from its
digits (`integer?_toString`).
-/

namespace TensorLowering

/-! ## Digits -/

theorem isDigit_of_mem_toString {n : Nat} {ch : Char} (h : ch ∈ (toString n).toList) :
    ch.isDigit = true := by
  rw [Nat.toString_eq_ofList_toDigits, String.toList_ofList] at h
  exact Nat.isDigit_of_mem_toDigits (by decide) (by decide) h

theorem toList_toString_ne_nil (n : Nat) : (toString n).toList ≠ [] := by
  rw [Nat.toString_eq_ofList_toDigits, String.toList_ofList]
  exact Nat.toDigits_ne_nil

theorem toList_toString_negSucc (n : Nat) :
    (toString (Int.negSucc n)).toList = '-' :: (toString (n + 1)).toList :=
  String.toList_append

theorem toList_toString_int (n : Int) : ∃ (sign : List Char) (m : Nat),
    (toString n).toList = sign ++ (toString m).toList ∧ sign.all (· == '-') = true := by
  cases n with
  | ofNat m => exact ⟨[], m, rfl, rfl⟩
  | negSucc m => exact ⟨['-'], m + 1, toList_toString_negSucc m, rfl⟩

/-- A number is written with digits and a minus sign. -/
theorem isDigit_or_of_mem_toString {n : Int} {ch : Char} (h : ch ∈ (toString n).toList) :
    ch.isDigit = true ∨ ch = '-' := by
  obtain ⟨sign, m, htext, hsign⟩ := toList_toString_int n
  rw [htext, List.mem_append] at h
  rcases h with h | h
  · exact .inr (by simpa using List.all_eq_true.1 hsign ch h)
  · exact .inl (isDigit_of_mem_toString h)

/-! ## Reading numerals -/

/-- The number that a nonempty text of digits spells. -/
def natural? (chars : List Char) : Option Nat :=
  if chars ≠ [] ∧ chars.all Char.isDigit = true then some (Nat.ofDigitChars 10 chars 0) else none

/-- The number that digits spell, with or without a minus sign in front. -/
def integer? (chars : List Char) : Option Int :=
  match chars with
  | '-' :: digits => (natural? digits).map fun n => -Int.ofNat n
  | digits => (natural? digits).map Int.ofNat

theorem natural?_toString (n : Nat) : natural? (toString n).toList = some n := by
  have hdigits : (toString n).toList.all Char.isDigit = true :=
    List.all_eq_true.2 fun _ => isDigit_of_mem_toString
  rw [natural?, if_pos ⟨toList_toString_ne_nil n, hdigits⟩, Nat.toString_eq_ofList_toDigits,
    String.toList_ofList, Nat.ofDigitChars_ten_toDigits]

/-- Different numbers have different digits. -/
theorem toString_injective {n m : Nat} (h : toString n = toString m) : n = m := by
  have hn := natural?_toString n
  rw [h, natural?_toString] at hn
  exact (Option.some.inj hn).symm

/-- A text whose first character is no digit spells no number without a sign. -/
theorem natural?_eq_none {chars : List Char} (h : ∀ ch ∈ chars.head?, ch.isDigit = false) :
    natural? chars = none := by
  refine if_neg fun hdigits => ?_
  obtain ⟨hne, hall⟩ := hdigits
  cases chars with
  | nil => exact hne rfl
  | cons ch rest =>
    have hno : ch.isDigit = false := h ch rfl
    rw [List.all_eq_true.1 hall ch List.mem_cons_self] at hno
    cases hno

theorem integer?_of_natural? {chars : List Char} {n : Nat} (h : natural? chars = some n) :
    integer? chars = some (Int.ofNat n) := by
  unfold integer?
  split
  · next digits =>
    have hsign : natural? ('-' :: digits) = none := natural?_eq_none (by simp)
    rw [hsign] at h
    cases h
  · rw [h, Option.map_some]

/-- A text whose first character is neither a digit nor a minus sign spells no number. -/
theorem integer?_eq_none {chars : List Char}
    (h : ∀ ch ∈ chars.head?, ch.isDigit = false ∧ ch ≠ '-') : integer? chars = none := by
  unfold integer?
  split
  · exact absurd rfl (h '-' rfl).2
  · rw [natural?_eq_none fun ch hch => (h ch hch).1, Option.map_none]

/-- Every number is read back from its digits. -/
theorem integer?_toString (n : Int) : integer? (toString n).toList = some n := by
  cases n with
  | ofNat m => exact integer?_of_natural? (natural?_toString m)
  | negSucc m =>
    rw [toList_toString_negSucc, integer?, natural?_toString]
    rfl

end TensorLowering
