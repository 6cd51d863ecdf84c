import TensorLowering.Layout.Allocate
import TensorLowering.Proofs.Symbol.Extension

/-!
# Sizes in bytes

The size of a tensor is its element count times four, rounded up to the alignment. Under every table
that knows at least as much as the graph the size, if it has a value at all, is this rounding
(`alignedBytes`) of the value that the simplified count has there (`Graph.evaluates_byteSize`). The
rounding is at least four times the count (`four_mul_le_alignedBytes`) and a multiple of the
alignment (`dvd_alignedBytes`).
-/

namespace TensorLowering

/-! ## Rounding -/

/-- The bytes of a number of elements, rounded up to an alignment; an alignment of one or less asks
for nothing. -/
def alignedBytes (alignment : Int64) (count : Int) : Int :=
  if alignment ≤ 1 then 4 * count
  else (4 * count + (alignment.toInt - 1)).fdiv alignment.toInt * alignment.toInt

section
variable {alignment : Int64}

/-- An alignment that asks for something is at least two as a number. -/
theorem one_lt_toInt (h : ¬ alignment ≤ 1) : 1 < alignment.toInt := by
  have := Int64.lt_iff_toInt_lt.1 (Int64.not_le.1 h)
  simpa using this

/-- Rounding up does not lose bytes. -/
theorem four_mul_le_alignedBytes (alignment : Int64) (count : Int) :
    4 * count ≤ alignedBytes alignment count := by
  unfold alignedBytes
  split
  · exact Int.le_refl _
  · next h =>
    have hpos := one_lt_toInt h
    have hdiv := Int.fdiv_mul_add_fmod (4 * count + (alignment.toInt - 1)) alignment.toInt
    have hmod := Int.fmod_lt_of_pos (4 * count + (alignment.toInt - 1))
      (show 0 < alignment.toInt by omega)
    omega

/-- A rounded size is a multiple of the alignment. -/
theorem dvd_alignedBytes (h : 1 ≤ alignment.toInt) (count : Int) :
    alignment.toInt ∣ alignedBytes alignment count := by
  unfold alignedBytes
  split
  · next hle =>
    have hone : alignment.toInt = 1 := by
      have := Int64.le_iff_toInt_le.1 hle
      simp at this
      omega
    rw [hone]
    exact Int.one_dvd _
  · exact Int.dvd_mul_left _ _

end

/-! ## The values of sizes -/

/-- Simplification goes through rounding. -/
theorem SymbolTable.simplify_alignUp (t : SymbolTable) (a : Extent) (alignment : Int64) :
    t.simplify (a.alignUp alignment) = (t.simplify a).alignUp alignment := by
  unfold Extent.alignUp
  split
  · rfl
  · refine (t.simplify_combine _ _ _).trans (congrArg (Extent.combine .mul · _) ?_)
    refine (t.simplify_combine _ _ _).trans (congrArg (Extent.combine .floorDiv · _) ?_)
    exact t.simplify_combine _ _ _

/-- The evaluation of a rounded extent is open only if that of the extent is. -/
theorem SymbolTable.evaluate_alignUp_ne_none {t : SymbolTable} {a : Extent} {alignment : Int64}
    (ha : t.evaluate a ≠ .ok none) : t.evaluate (a.alignUp alignment) ≠ .ok none := by
  unfold Extent.alignUp
  split
  · exact ha
  · refine evaluate_combine_ne_none .mul (evaluate_combine_ne_none .floorDiv ?_ nofun) nofun
    exact evaluate_combine_ne_none .add ha nofun

/-- A rounded product that has a value rounds a count that has one. -/
theorem SymbolTable.Evaluates.of_alignUp {t : SymbolTable} {count : Extent} {alignment z : Int64}
    (h : t.Evaluates ((count * .value elementBytes).alignUp alignment) z) :
    ∃ n, t.Evaluates count n ∧ z.toInt = alignedBytes alignment n.toInt := by
  have hbytes : ∀ {y : Int64}, t.Evaluates (count * .value elementBytes) y →
      ∃ n, t.Evaluates count n ∧ y.toInt = 4 * n.toInt := by
    intro y hy
    obtain ⟨n, hn, hmul⟩ := hy.of_mul_literal (by decide)
    refine ⟨n, hn, ?_⟩
    rw [hmul, Int.mul_comm]
    rfl
  unfold Extent.alignUp at h
  unfold alignedBytes
  split at h
  · next hle =>
    simpa only [if_pos hle] using hbytes h
  · next hle =>
    simp only [if_neg hle]
    have hpos := one_lt_toInt hle
    have hne : alignment ≠ 0 := by
      rintro rfl
      simp at hpos
    obtain ⟨q, hq, hmul⟩ := h.of_mul_literal hne
    obtain ⟨d, hd, hdiv⟩ := hq.of_floorDiv_literal hne
    obtain ⟨y, a, hy, ha, hsum⟩ := Evaluates.of_add hd
    obtain ⟨n, hn, hfour⟩ := hbytes hy
    refine ⟨n, hn, ?_⟩
    have hpred : a.toInt = alignment.toInt - 1 := by
      rw [← evaluates_value.1 ha]
      exact Int64.toInt_sub_of_le _ _ (by decide) (Int64.le_of_lt (Int64.not_le.1 hle))
    rw [hmul, hdiv, hsum, hfour, hpred]

namespace Graph

variable {g : Graph} {alignment : UInt64} {x : Tensor} {size : Extent} {t : SymbolTable} {z : Int64}

/-- A tensor that has a size has a count that can be evaluated as far as symbols are bound, and is
not negative when it has a value. The size is simplified, and can be evaluated as well. -/
theorem byteSize_stages (h : g.byteSize alignment x = .ok size) :
    (∃ count?, g.symbols.evaluate x.shape.count = .ok count? ∧ ∀ n, count? = some n → 0 ≤ n) ∧
      size = g.symbols.simplify
        ((x.shape.count * .value elementBytes).alignUp alignment.toInt64) ∧
      ∃ r, g.symbols.evaluate size = .ok r := by
  obtain ⟨count?, hcount, h⟩ := Computation.bind_eq_ok.1 h
  have hrest : (∀ n, count? = some n → 0 ≤ n) ∧ (do
      let bytes := g.symbols.simplify
        ((x.shape.count * .value elementBytes).alignUp alignment.toInt64)
      let _ ← g.symbols.evaluate bytes
      pure bytes : Lowering Extent) = .ok size := by
    cases count? with
    | none => exact ⟨nofun, h⟩
    | some n =>
      obtain ⟨hn, h⟩ := Computation.guard_eq_ok.1 h
      exact ⟨fun m hm => Option.some.inj hm ▸ Int64.not_lt.1 hn, h⟩
  obtain ⟨r, hr, hsize⟩ := Computation.bind_eq_ok.1 hrest.2
  cases hsize
  exact ⟨⟨count?, hcount, hrest.1⟩, rfl, r, hr⟩

/-- A size is the rounded size of the simplified count, and a count with a value is not negative. -/
theorem byteSize_eq_ok (h : g.byteSize alignment x = .ok size) :
    size = (g.symbols.simplify x.shape.count * .value elementBytes).alignUp alignment.toInt64 ∧
      ∀ n, g.symbols.Evaluates x.shape.count n → 0 ≤ n := by
  obtain ⟨⟨count?, hcount, hnonneg⟩, rfl, -⟩ := byteSize_stages h
  refine ⟨?_, fun n hn => hnonneg n ?_⟩
  · rw [SymbolTable.simplify_alignUp]
    exact congrArg (Extent.alignUp · _) (SymbolTable.simplify_combine _ _ _ _)
  · cases hcount.symm.trans hn
    rfl

/-- A size is simplified as far as the graph's symbols go. -/
theorem simplify_byteSize (h : g.byteSize alignment x = .ok size) :
    g.symbols.simplify size = size := by
  rw [(byteSize_eq_ok h).1, SymbolTable.simplify_alignUp]
  refine congrArg (Extent.alignUp · _) ?_
  exact (SymbolTable.simplify_combine _ _ _ _).trans (congrArg (Extent.combine .mul · _)
    ((SymbolTable.Extends.refl _).simplify_simplify _))

/-- The value of a size rounds the value of the simplified count. -/
theorem evaluates_byteSize (h : g.byteSize alignment x = .ok size) (hz : t.Evaluates size z) :
    ∃ n, t.Evaluates (g.symbols.simplify x.shape.count) n ∧
      z.toInt = alignedBytes alignment.toInt64 n.toInt := by
  rw [(byteSize_eq_ok h).1] at hz
  exact hz.of_alignUp

/-- A count that simplifies to a literal gives a size that is a literal. -/
theorem byteSize_of_simplify {n : Int64} (h : g.byteSize alignment x = .ok size)
    (hn : g.symbols.simplify x.shape.count = .value n) :
    ∃ z, size = .value z ∧ z.toInt = alignedBytes alignment.toInt64 n.toInt := by
  have hopen : g.symbols.evaluate size ≠ .ok none := by
    rw [(byteSize_eq_ok h).1, hn]
    refine SymbolTable.evaluate_alignUp_ne_none ?_
    exact SymbolTable.evaluate_combine_ne_none .mul nofun nofun
  obtain ⟨-, -, r, hr⟩ := byteSize_stages h
  cases r with
  | none => exact absurd hr hopen
  | some z =>
    have hz : g.symbols.Evaluates size z := hr
    obtain ⟨m, hm, heq⟩ := evaluates_byteSize h hz
    rw [hn] at hm
    cases SymbolTable.evaluates_value.1 hm
    exact ⟨z, (simplify_byteSize h).symm.trans hz.simplify_eq, heq⟩

end Graph

end TensorLowering
