import TensorLowering.Proofs.Obligation

/-!
# Which symbols an extent mentions

An evaluation fails on a symbol that the table does not have, while one that is not bound yet only
leaves the result open. `Extent.Over` bounds the symbols of an extent; the arithmetic and
simplification mention no others (`Extent.Over.combine`, `Extent.Over.simplify`). Over the symbols
of a table, what has a value under a larger table does not fail under this one
(`SymbolTable.Extends.exists_evaluate`), and what holds under a larger table is not violated under
this one (`SymbolTable.Extends.tenable`).
-/

namespace TensorLowering

/-! ## The symbols of an extent -/

namespace Extent

variable {P Q : SymbolId → Prop} {op : BinaryOp} {a b c : Extent}

/-- Every symbol of the extent satisfies a predicate. -/
def Over (P : SymbolId → Prop) (a : Extent) : Prop := ∀ k ∈ a.occurrences, P k

instance [DecidablePred P] (a : Extent) : Decidable (a.Over P) :=
  inferInstanceAs (Decidable (∀ k ∈ a.occurrences, P k))

theorem Over.mono (h : a.Over P) (hPQ : ∀ k, P k → Q k) : a.Over Q := fun k hk => hPQ k (h k hk)

theorem over_value (n : Int64) : (value n).Over P := fun _ hk => absurd hk List.not_mem_nil

theorem over_symbol {k : SymbolId} : (symbol k).Over P ↔ P k := by simp [Over, occurrences]

theorem over_binary : (binary op a b).Over P ↔ a.Over P ∧ b.Over P := by
  simp only [Over, occurrences]
  exact List.forall_mem_append

/-- What is left when an operation disappears mentions symbols of the operands only. -/
theorem Law.over (h : Law op a b c) (ha : a.Over P) (hb : b.Over P) : c.Over P := by
  cases h with
  | zeroAdd | oneMul | mulZero => exact hb
  | addZero | subZero | mulOne | zeroMul | floorDivOne => exact ha

/-- The arithmetic mentions symbols of its operands only. -/
theorem Over.combine (ha : a.Over P) (hb : b.Over P) : (Extent.combine op a b).Over P := by
  rcases combine_cases op a b with ⟨x, y, z, -, -, -, h⟩ | h | h
  · rw [h]
    exact over_value z
  · exact h.over ha hb
  · rw [h]
    exact over_binary.2 ⟨ha, hb⟩

/-- Simplification mentions symbols of the extent only. -/
theorem Over.simplify (t : SymbolTable) (h : a.Over P) : (t.simplify a).Over P := by
  induction a with
  | value n => exact h
  | symbol k =>
    unfold SymbolTable.simplify
    split
    · exact over_value _
    · exact h
  | binary op a b iha ihb =>
    obtain ⟨ha, hb⟩ := over_binary.1 h
    exact (iha ha).combine (ihb hb)

end Extent

/-! ## Evaluation over the symbols of a table -/

namespace SymbolTable

variable {t u : SymbolTable} {a : Extent} {n : Int64}

/-- An evaluation that does not fail has found every symbol. -/
theorem over_of_evaluate {r : Option Int64} (h : t.evaluate a = .ok r) : a.Over (· < t.size) := by
  induction a generalizing r with
  | value m => exact Extent.over_value m
  | symbol k =>
    obtain ⟨e, he, -⟩ := Computation.map_eq_ok.1 h
    unfold entry at he
    split at he
    · next e' he' => exact Extent.over_symbol.2 (List.getElem?_eq_some_iff.1 he').1
    · cases he
  | binary op a b iha ihb =>
    simp only [evaluate, Computation.bind_eq_ok] at h
    obtain ⟨x?, hx, y?, hy, -⟩ := h
    exact Extent.over_binary.2 ⟨iha hx, ihb hy⟩

/-- An extent over the symbols of a table that has a value under a larger table either has that
value or waits for a symbol. -/
theorem Extends.exists_evaluate (h : t.Extends u) (hover : a.Over (· < t.size))
    (ha : u.Evaluates a n) : ∃ r, t.evaluate a = .ok r ∧ ∀ m, r = some m → m = n := by
  suffices hok : ∃ r, t.evaluate a = .ok r by
    obtain ⟨r, hr⟩ := hok
    refine ⟨r, hr, fun m hm => ?_⟩
    subst hm
    exact (h.evaluates hr).unique ha
  induction a generalizing n with
  | value m => exact ⟨_, rfl⟩
  | symbol k =>
    have hk : k < t.size := hover k (by simp [Extent.occurrences])
    exact ⟨_, by rw [evaluate, entry, List.getElem?_eq_getElem hk]; rfl⟩
  | binary op a b iha ihb =>
    obtain ⟨hovera, hoverb⟩ := Extent.over_binary.1 hover
    obtain ⟨x, y, hx, hy, hn⟩ := evaluates_binary.1 ha
    obtain ⟨x?, hx?⟩ := iha hovera hx
    obtain ⟨y?, hy?⟩ := ihb hoverb hy
    simp only [evaluate, hx?, hy?, Computation.ok_bind]
    cases x? with
    | none => exact ⟨none, rfl⟩
    | some x' =>
      cases y? with
      | none => exact ⟨none, rfl⟩
      | some y' =>
        cases (h.evaluates hx?).unique hx
        cases (h.evaluates hy?).unique hy
        exact ⟨some n, by simp [hn, pure, Except.pure]⟩

end SymbolTable

/-! ## Obligations over the symbols of a table -/

variable {t u : SymbolTable} {o : Obligation} {operator : String}

/-- An obligation that is not violated mentions symbols of the table only. -/
theorem Obligation.Tenable.over (h : o.Tenable operator t) :
    ∀ a ∈ o.relation.extents, a.Over (· < t.size) := by
  obtain ⟨met, hmet⟩ := h
  unfold check at hmet
  split at hmet
  · next lhs rhs heq =>
    obtain ⟨x?, hx, hmet⟩ := Computation.bind_eq_ok.1 hmet
    obtain ⟨y?, hy, -⟩ := Computation.bind_eq_ok.1 hmet
    simpa [heq, Relation.extents] using
      ⟨SymbolTable.over_of_evaluate hx, SymbolTable.over_of_evaluate hy⟩
  · next extent heq =>
    obtain ⟨x?, hx, -⟩ := Computation.bind_eq_ok.1 hmet
    simpa [heq, Relation.extents] using SymbolTable.over_of_evaluate hx

/-- An obligation over the symbols of a table is not violated if its relation holds under a larger
table. -/
theorem SymbolTable.Extends.tenable (h : t.Extends u)
    (hover : ∀ a ∈ o.relation.extents, a.Over (· < t.size)) (hholds : o.relation.Holds u) :
    o.Tenable operator t := by
  obtain ⟨description, relation⟩ := o
  unfold Obligation.Tenable Obligation.check
  cases relation with
  | equal lhs rhs =>
    obtain ⟨n, hl, hr⟩ := hholds
    obtain ⟨x?, hx, hxn⟩ := h.exists_evaluate (hover lhs (by simp [Relation.extents])) hl
    obtain ⟨y?, hy, hyn⟩ := h.exists_evaluate (hover rhs (by simp [Relation.extents])) hr
    simp only [hx, hy, Computation.ok_bind]
    split
    · next x y =>
      rw [if_pos ((hxn x rfl).trans (hyn y rfl).symm)]
      exact ⟨true, rfl⟩
    · exact ⟨false, rfl⟩
  | positive extent =>
    obtain ⟨n, he, hpos⟩ := hholds
    obtain ⟨x?, hx, hxn⟩ := h.exists_evaluate (hover extent (by simp [Relation.extents])) he
    simp only [hx, Computation.ok_bind]
    split
    · next x =>
      rw [if_neg (Int64.not_le.2 (hxn x rfl ▸ hpos))]
      exact ⟨true, rfl⟩
    · exact ⟨false, rfl⟩

end TensorLowering
