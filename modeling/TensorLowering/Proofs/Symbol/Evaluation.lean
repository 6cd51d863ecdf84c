import TensorLowering.Symbol.Table
import TensorLowering.Proofs.Computation

/-!
# What extents evaluate to

`SymbolTable.Evaluates` says that an extent has a value under a table. It goes through
`Extent.combine` in both directions: operands with values combine to an extent with the value of
the operation (`SymbolTable.Evaluates.combine`), and a combined extent that has a value got it from
operands that have one (`SymbolTable.Evaluates.of_combine`), a product with a literal zero
excepted, which forgets its other operand. `SymbolTable.simplify` commutes with `Extent.combine`
(`SymbolTable.simplify_combine`).

The identity and absorption laws of the arithmetic are an inductive family of their own
(`Extent.Law`), so that whatever holds of all of them is proved by cases once. In a complete table
every symbol is bound (`SymbolTable.Complete`), and an evaluation fails or gives a value.
-/

namespace TensorLowering

namespace Extent

/-! ## The laws of the arithmetic -/

/-- An operation that disappears because of one literal operand, with what is left of it. -/
inductive Law : BinaryOp → Extent → Extent → Extent → Prop
  | zeroAdd (b : Extent) : Law .add (value 0) b b
  | addZero (a : Extent) : Law .add a (value 0) a
  | subZero (a : Extent) : Law .sub a (value 0) a
  | oneMul (b : Extent) : Law .mul (value 1) b b
  | mulOne (a : Extent) : Law .mul a (value 1) a
  | zeroMul (b : Extent) : Law .mul (value 0) b (value 0)
  | mulZero (a : Extent) : Law .mul a (value 0) (value 0)
  | floorDivOne (a : Extent) : Law .floorDiv a (value 1) a

/-- Two literals that a law applies to fold to what the law leaves. -/
theorem Law.eval {op : BinaryOp} {x y z : Int64} (h : Law op (value x) (value y) (value z)) :
    op.eval x y = some z := by
  rw [BinaryOp.eval_eq_some_iff]
  cases h <;> simp [BinaryOp.exact]

/-- An operation on two extents folds, falls under a law, or stays a node. -/
theorem combine_cases (op : BinaryOp) (a b : Extent) :
    (∃ x y z, a = value x ∧ b = value y ∧ op.eval x y = some z ∧ combine op a b = value z) ∨
      Law op a b (combine op a b) ∨ combine op a b = binary op a b := by
  have hs : Law op a b (simplified op a b) ∨ simplified op a b = binary op a b := by
    cases op with
    | add =>
      simp only [simplified]
      split
      · next h => exact .inl (h ▸ .zeroAdd b)
      · split
        · next h => exact .inl (h ▸ .addZero a)
        · exact .inr rfl
    | sub =>
      simp only [simplified]
      split
      · next h => exact .inl (h ▸ .subZero a)
      · exact .inr rfl
    | mul =>
      simp only [simplified]
      split
      · next h => exact .inl (h ▸ .oneMul b)
      · split
        · next h => exact .inl (h ▸ .mulOne a)
        · split
          · next h =>
            rcases h with rfl | rfl
            · exact .inl (.zeroMul b)
            · exact .inl (.mulZero a)
          · exact .inr rfl
    | floorDiv =>
      simp only [simplified]
      split
      · next h => exact .inl (h ▸ .floorDivOne a)
      · exact .inr rfl
  unfold combine
  split
  · next x y =>
    split
    · next z h => exact .inl ⟨x, y, z, rfl, rfl, h, rfl⟩
    · exact .inr hs
  · exact .inr hs

/-- Two literals fold when a word can hold the result. -/
theorem combine_value {op : BinaryOp} {x y z : Int64} (h : op.eval x y = some z) :
    combine op (value x) (value y) = value z := by
  simp [combine, h]

/-- An operation that a law applies to is what the law leaves. -/
theorem Law.combine_eq {op : BinaryOp} {a b c : Extent} (h : Law op a b c) :
    combine op a b = c := by
  cases h with
  | zeroAdd => cases b <;> simp [combine, simplified, (Law.zeroAdd _).eval]
  | addZero => cases a <;> simp [combine, simplified, (Law.addZero _).eval]
  | subZero => cases a <;> simp [combine, simplified, (Law.subZero _).eval]
  | oneMul => cases b <;> simp [combine, simplified, (Law.oneMul _).eval]
  | mulOne => cases a <;> simp [combine, simplified, (Law.mulOne _).eval]
  | zeroMul => cases b <;> simp [combine, simplified, (Law.zeroMul _).eval]
  | mulZero => cases a <;> simp [combine, simplified, (Law.mulZero _).eval]
  | floorDivOne => cases a <;> simp [combine, simplified, (Law.floorDivOne _).eval]

end Extent

namespace SymbolTable

variable {t : SymbolTable} {op : BinaryOp} {a b c : Extent} {x y z : Int64}

/-! ## Values under a table -/

/-- The extent has a value under the table. -/
def Evaluates (t : SymbolTable) (a : Extent) (n : Int64) : Prop := t.evaluate a = .ok (some n)

instance (t : SymbolTable) (a : Extent) (n : Int64) : Decidable (t.Evaluates a n) :=
  inferInstanceAs (Decidable (_ = _))

/-- An extent has at most one value. -/
theorem Evaluates.unique (h₁ : t.Evaluates a x) (h₂ : t.Evaluates a y) : x = y := by
  have h := h₁.symm.trans h₂
  cases h
  rfl

theorem evaluates_value : t.Evaluates (.value x) y ↔ x = y := by
  simp [Evaluates, evaluate]

theorem evaluates_symbol {k : SymbolId} : t.Evaluates (.symbol k) x ↔ t.value? k = some x := by
  unfold Evaluates evaluate entry value?
  cases h : t.entries[k]? with
  | none => simp [Except.map]
  | some e => simp [Except.map]

/-- An operation node has the value of the operation on the values of its operands. -/
theorem evaluates_binary :
    t.Evaluates (.binary op a b) z ↔
      ∃ x y, t.Evaluates a x ∧ t.Evaluates b y ∧ op.eval x y = some z := by
  simp only [Evaluates, evaluate, Computation.bind_eq_ok]
  constructor
  · rintro ⟨x?, hx, y?, hy, h⟩
    split at h
    · next x y =>
      split at h
      · next z' hz =>
        cases h
        exact ⟨x, y, hx, hy, hz⟩
      · cases h
    · cases h
  · rintro ⟨x, y, hx, hy, hz⟩
    exact ⟨some x, hx, some y, hy, by simp [hz, pure, Except.pure]⟩

/-! ## Values of combined extents -/

/-- A law that applies to two extents applies to their values. -/
theorem Evaluates.law (h : Extent.Law op a b c) (ha : t.Evaluates a x) (hb : t.Evaluates b y) :
    ∃ z, t.Evaluates c z ∧ Extent.Law op (.value x) (.value y) (.value z) := by
  cases h with
  | zeroAdd | oneMul =>
    cases evaluates_value.1 ha
    exact ⟨y, hb, by constructor⟩
  | addZero | subZero | mulOne | floorDivOne =>
    cases evaluates_value.1 hb
    exact ⟨x, ha, by constructor⟩
  | zeroMul =>
    cases evaluates_value.1 ha
    exact ⟨0, ha, .zeroMul _⟩
  | mulZero =>
    cases evaluates_value.1 hb
    exact ⟨0, hb, .mulZero _⟩

/-- Operands with values combine to an extent with the value of the operation. -/
theorem Evaluates.combine (ha : t.Evaluates a x) (hb : t.Evaluates b y)
    (hz : op.eval x y = some z) : t.Evaluates (Extent.combine op a b) z := by
  rcases Extent.combine_cases op a b with ⟨x', y', z', rfl, rfl, hz', h⟩ | h | h
  · cases evaluates_value.1 ha
    cases evaluates_value.1 hb
    rw [h, evaluates_value]
    simpa [hz] using hz'.symm
  · obtain ⟨z', hz', hl⟩ := ha.law h hb
    cases hz.symm.trans hl.eval
    exact hz'
  · rw [h]
    exact evaluates_binary.2 ⟨x, y, ha, hb, hz⟩

/-- A combined extent with a value has operands with values, or is a product that a literal zero
absorbed. -/
theorem Evaluates.of_combine (h : t.Evaluates (Extent.combine op a b) z) :
    (∃ x y, t.Evaluates a x ∧ t.Evaluates b y ∧ op.eval x y = some z) ∨
      op = .mul ∧ (a = .value 0 ∨ b = .value 0) ∧ z = 0 := by
  rcases Extent.combine_cases op a b with ⟨x, y, z', rfl, rfl, hz, hc⟩ | hl | hc
  · rw [hc, evaluates_value] at h
    exact .inl ⟨x, y, evaluates_value.2 rfl, evaluates_value.2 rfl, h ▸ hz⟩
  · generalize Extent.combine op a b = c at h hl
    cases hl with
    | zeroAdd => exact .inl ⟨0, z, evaluates_value.2 rfl, h, (Extent.Law.zeroAdd _).eval⟩
    | addZero => exact .inl ⟨z, 0, h, evaluates_value.2 rfl, (Extent.Law.addZero _).eval⟩
    | subZero => exact .inl ⟨z, 0, h, evaluates_value.2 rfl, (Extent.Law.subZero _).eval⟩
    | oneMul => exact .inl ⟨1, z, evaluates_value.2 rfl, h, (Extent.Law.oneMul _).eval⟩
    | mulOne => exact .inl ⟨z, 1, h, evaluates_value.2 rfl, (Extent.Law.mulOne _).eval⟩
    | floorDivOne =>
      exact .inl ⟨z, 1, h, evaluates_value.2 rfl, (Extent.Law.floorDivOne _).eval⟩
    | zeroMul => exact .inr ⟨rfl, .inl rfl, (evaluates_value.1 h).symm⟩
    | mulZero => exact .inr ⟨rfl, .inr rfl, (evaluates_value.1 h).symm⟩
  · rw [hc] at h
    exact .inl (evaluates_binary.1 h)

/-- An operation other than a product has a value only if its operands have values. -/
theorem Evaluates.of_combine_of_ne (hop : op ≠ .mul)
    (h : t.Evaluates (Extent.combine op a b) z) :
    ∃ x y, t.Evaluates a x ∧ t.Evaluates b y ∧ op.eval x y = some z := by
  rcases h.of_combine with hvalues | ⟨hmul, -⟩
  · exact hvalues
  · exact absurd hmul hop

/-- A sum with a value has summands with values. -/
theorem Evaluates.of_add (h : t.Evaluates (a + b) z) :
    ∃ x y, t.Evaluates a x ∧ t.Evaluates b y ∧ z.toInt = x.toInt + y.toInt := by
  have hsum : t.Evaluates (.combine .add a b) z := h
  obtain ⟨x, y, hx, hy, hz⟩ := hsum.of_combine_of_ne (by decide)
  exact ⟨x, y, hx, hy, (Option.some.inj (BinaryOp.eval_eq_some_iff.1 hz)).symm⟩

/-- A difference with a value is between values. -/
theorem Evaluates.of_sub (h : t.Evaluates (a - b) z) :
    ∃ x y, t.Evaluates a x ∧ t.Evaluates b y ∧ z.toInt = x.toInt - y.toInt := by
  have hdifference : t.Evaluates (.combine .sub a b) z := h
  obtain ⟨x, y, hx, hy, hz⟩ := hdifference.of_combine_of_ne (by decide)
  exact ⟨x, y, hx, hy, (Option.some.inj (BinaryOp.eval_eq_some_iff.1 hz)).symm⟩

/-- An operation with a literal on the right that is not zero has a value only if its left operand
has one. -/
theorem Evaluates.of_combine_literal {k : Int64} (hk : k ≠ 0)
    (h : t.Evaluates (Extent.combine op a (.value k)) z) :
    ∃ x, t.Evaluates a x ∧ op.exact x.toInt k.toInt = some z.toInt := by
  simp only [← BinaryOp.eval_eq_some_iff]
  rcases h.of_combine with ⟨x, y, hx, hy, hz⟩ | ⟨rfl, rfl | hb, rfl⟩
  · cases evaluates_value.1 hy
    exact ⟨x, hx, hz⟩
  · exact ⟨0, evaluates_value.2 rfl, (Extent.Law.zeroMul _).eval⟩
  · cases hb
    exact absurd rfl hk

/-- The left operand of an operation can be replaced by an extent that has its value, unless the
operation may absorb the operand. -/
theorem Evaluates.combine_congr {a' : Extent} (ha : ∀ x, t.Evaluates a x → t.Evaluates a' x)
    (hop : op ≠ .mul ∨ ∃ k, k ≠ 0 ∧ b = .value k) (h : t.Evaluates (Extent.combine op a b) z) :
    t.Evaluates (Extent.combine op a' b) z := by
  rcases hop with hop | ⟨k, hk, rfl⟩
  · obtain ⟨x, y, hx, hy, hz⟩ := h.of_combine_of_ne hop
    exact (ha x hx).combine hy hz
  · obtain ⟨x, hx, hz⟩ := h.of_combine_literal hk
    exact (ha x hx).combine (evaluates_value.2 rfl) (BinaryOp.eval_eq_some_iff.2 hz)

/-- A product with a literal that is not zero has a value only if its left factor has one. -/
theorem Evaluates.of_mul_literal {k : Int64} (hk : k ≠ 0) (h : t.Evaluates (a * .value k) z) :
    ∃ x, t.Evaluates a x ∧ z.toInt = x.toInt * k.toInt := by
  obtain ⟨x, hx, hz⟩ :=
    Evaluates.of_combine_literal hk (show t.Evaluates (.combine .mul a (.value k)) z from h)
  exact ⟨x, hx, (Option.some.inj hz).symm⟩

/-- A quotient by a literal that is not zero has a value only if its dividend has one. -/
theorem Evaluates.of_floorDiv_literal {k : Int64} (hk : k ≠ 0)
    (h : t.Evaluates (a.floorDiv (.value k)) z) :
    ∃ x, t.Evaluates a x ∧ z.toInt = x.toInt.fdiv k.toInt := by
  obtain ⟨x, hx, hz⟩ :=
    Evaluates.of_combine_literal hk (show t.Evaluates (.combine .floorDiv a (.value k)) z from h)
  have hne : k.toInt ≠ 0 := fun hzero => hk (Int64.toInt_inj.1 hzero)
  rw [BinaryOp.exact, if_neg hne] at hz
  exact ⟨x, hx, (Option.some.inj hz).symm⟩

/-! ## Open evaluations -/

/-- The evaluation of an operation node is open only if that of an operand is. -/
theorem evaluate_binary_ne_none (ha : t.evaluate a ≠ .ok none) (hb : t.evaluate b ≠ .ok none) :
    t.evaluate (.binary op a b) ≠ .ok none := by
  intro h
  simp only [evaluate, Computation.bind_eq_ok] at h
  obtain ⟨x?, hx, y?, hy, h⟩ := h
  cases x? with
  | none => exact ha hx
  | some x =>
    cases y? with
    | none => exact hb hy
    | some y =>
      dsimp only at h
      split at h
      · cases h
      · cases h

/-- The evaluation of a combined extent is open only if that of an operand is. -/
theorem evaluate_combine_ne_none (op : BinaryOp) (ha : t.evaluate a ≠ .ok none)
    (hb : t.evaluate b ≠ .ok none) : t.evaluate (Extent.combine op a b) ≠ .ok none := by
  rcases Extent.combine_cases op a b with ⟨x, y, z, -, -, -, h⟩ | h | h
  · rw [h]
    exact nofun
  · generalize Extent.combine op a b = c at h
    cases h with
    | zeroAdd | oneMul | mulZero => exact hb
    | addZero | subZero | mulOne | zeroMul | floorDivOne => exact ha
  · rw [h]
    exact evaluate_binary_ne_none ha hb

/-! ## Simplification and combination -/

/-- A law that applies to two extents applies to their simplifications. -/
theorem law_simplify (t : SymbolTable) (h : Extent.Law op a b c) :
    Extent.Law op (t.simplify a) (t.simplify b) (t.simplify c) := by
  cases h <;> constructor

/-- Simplification goes through the arithmetic. -/
theorem simplify_combine (t : SymbolTable) (op : BinaryOp) (a b : Extent) :
    t.simplify (Extent.combine op a b) = Extent.combine op (t.simplify a) (t.simplify b) := by
  rcases Extent.combine_cases op a b with ⟨x, y, z, rfl, rfl, hz, h⟩ | h | h
  · rw [h, simplify, simplify, simplify, Extent.combine_value hz]
  · exact (t.law_simplify h).combine_eq.symm
  · rw [h, simplify]

/-- Simplification goes through a product, factor by factor. -/
theorem simplify_product (t : SymbolTable) (extents : List Extent) :
    t.simplify (Extent.product extents) = Extent.product (extents.map t.simplify) := by
  have hfold : ∀ acc : Extent, t.simplify (extents.foldl (· * ·) acc) =
      (extents.map t.simplify).foldl (· * ·) (t.simplify acc) := by
    induction extents with
    | nil => exact fun _ => rfl
    | cons a rest ih =>
      intro acc
      rw [List.foldl_cons, ih, List.map_cons, List.foldl_cons]
      exact congrArg (List.foldl (· * ·) · _) (t.simplify_combine .mul acc a)
  exact hfold (.value 1)

/-- An extent with a value simplifies to that value. -/
theorem Evaluates.simplify_eq (h : t.Evaluates a x) : t.simplify a = .value x := by
  induction a generalizing x with
  | value n => rw [evaluates_value.1 h, simplify]
  | symbol k => rw [simplify, evaluates_symbol.1 h]
  | binary op a b iha ihb =>
    obtain ⟨y, z, hy, hz, hx⟩ := evaluates_binary.1 h
    rw [simplify, iha hy, ihb hz, Extent.combine_value hx]

/-! ## Complete tables -/

/-- Every symbol of the table is bound. -/
def Complete (t : SymbolTable) : Prop := ∀ e ∈ t.entries, e.value.isSome

instance (t : SymbolTable) : Decidable t.Complete :=
  inferInstanceAs (Decidable (∀ e ∈ t.entries, e.value.isSome))

/-- Under a complete table an evaluation either fails or gives a value. -/
theorem Complete.evaluate_ne_none (ht : t.Complete) (a : Extent) : t.evaluate a ≠ .ok none := by
  induction a with
  | value n => exact nofun
  | symbol k =>
    intro h
    obtain ⟨e, he, hnone⟩ := Computation.map_eq_ok.1 h
    unfold entry at he
    split at he
    · next e' he' =>
      cases he
      have hbound := ht e (List.mem_of_getElem? he')
      rw [hnone] at hbound
      cases hbound
    · cases he
  | binary op a b iha ihb => exact evaluate_binary_ne_none iha ihb

end SymbolTable

end TensorLowering
