import Mathlib.Algebra.BigOperators.Group.List.Basic
import Mathlib.Algebra.Ring.Int.Defs
import TensorLowering.Proofs.Symbol.Evaluation

/-!
# Products of extents

A product is taken from the left and simplified on the way, so its form depends on the order of its
factors. So does whether it has a value: a partial product may fit in no word, and a literal zero
absorbs a factor that has no value. The value itself does not depend on the order. A product that
has one has the product of the numbers its factors stand for (`SymbolTable.Evaluates.product`), so
products of the same factors in two orders have one value where both have a value
(`SymbolTable.Evaluates.product_perm`).
-/

namespace TensorLowering

namespace SymbolTable

variable {t : SymbolTable} {a acc : Extent} {factors others : List Extent} {m n z : Int64}

/-- The integer that an extent stands for, and zero where it has no value. -/
def number (t : SymbolTable) (a : Extent) : Int :=
  match t.evaluate a with
  | .ok (some n) => n.toInt
  | _ => 0

theorem Evaluates.number_eq (h : t.Evaluates a n) : t.number a = n.toInt := by
  unfold Evaluates at h
  rw [number, h]

/-- A product that has a value is the value of what it started from, times the numbers of its
factors. What it started from has no value only if a literal zero among the factors absorbed it. -/
theorem Evaluates.foldl_mul (h : t.Evaluates (factors.foldl (· * ·) acc) z) :
    (∃ m, t.Evaluates acc m ∧ z.toInt = m.toInt * (factors.map t.number).prod) ∨
      z.toInt = 0 ∧ (factors.map t.number).prod = 0 := by
  induction factors generalizing acc with
  | nil => exact .inl ⟨z, h, (Int.mul_one _).symm⟩
  | cons a rest ih =>
    rw [List.map_cons, List.prod_cons]
    rcases ih h with ⟨m, hm, hz⟩ | ⟨hz, hrest⟩
    · have hm : t.Evaluates (Extent.combine .mul acc a) m := hm
      rcases hm.of_combine with ⟨x, y, hx, hy, hxy⟩ | ⟨-, hzero, rfl⟩
      · have hxy : x.toInt * y.toInt = m.toInt :=
          Option.some.inj (BinaryOp.eval_eq_some_iff.1 hxy)
        refine .inl ⟨x, hx, ?_⟩
        rw [hz, ← hxy, hy.number_eq, Int.mul_assoc]
      · have hvalue : t.Evaluates (.value 0) 0 := evaluates_value.2 rfl
        rw [Int64.toInt_zero, Int.zero_mul] at hz
        rcases hzero with rfl | rfl
        · exact .inl ⟨0, hvalue, by rw [hz, Int64.toInt_zero, Int.zero_mul]⟩
        · exact .inr ⟨hz, by rw [hvalue.number_eq, Int64.toInt_zero, Int.zero_mul]⟩
    · exact .inr ⟨hz, by rw [hrest, Int.mul_zero]⟩

/-- A product that has a value has the product of the numbers of its factors. -/
theorem Evaluates.product (h : t.Evaluates (Extent.product factors) z) :
    z.toInt = (factors.map t.number).prod := by
  rcases h.foldl_mul with ⟨m, hm, hz⟩ | ⟨hz, hprod⟩
  · rw [hz, ← evaluates_value.1 hm, Int64.toInt_one, Int.one_mul]
  · rw [hz, hprod]

/-- The order of the factors does not matter to the value of a product. -/
theorem Evaluates.product_perm (h : factors.Perm others)
    (hm : t.Evaluates (Extent.product factors) m) (hn : t.Evaluates (Extent.product others) n) :
    m = n := by
  rw [← Int64.toInt_inj, hm.product, hn.product]
  exact (h.map t.number).prod_eq

/-- The value may be missing in one order: here the partial product `2 ^ 62 * 4` fits in no word,
unless it is reached from a zero. -/
example :
    let t : SymbolTable := ⟨[⟨"N", some 0⟩]⟩
    t.Evaluates (Extent.product [.symbol 0, .value 4611686018427387904, .value 4]) 0 ∧
      ¬ t.Evaluates (Extent.product [.value 4611686018427387904, .value 4, .symbol 0]) 0 := by
  decide

end SymbolTable

end TensorLowering
