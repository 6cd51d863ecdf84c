import TensorLowering.Proofs.Symbol.Occurrence

/-!
# Evaluations that fail

An evaluation fails for one of two reasons (`SymbolTable.fault_of_evaluate`): a symbol is not in the
table, or the arithmetic has no result that a word can hold (`SymbolTable.Unsupported`). Over the
symbols of a table only the second is left (`SymbolTable.evaluate_cases`). A larger table does not
repair it (`SymbolTable.Extends.unsupported`): the operands that had values keep them, and an
operand that was still open either stays open, gets a value, or fails in the same way.
-/

namespace TensorLowering

namespace SymbolTable

variable {t u : SymbolTable} {op : BinaryOp} {a b : Extent}

/-- An evaluation fails at a symbol or at an operation. -/
theorem fault_of_evaluate {e : LoweringError} (h : t.evaluate a = .error e) :
    (∃ k, e = .unknownSymbol k) ∨
      ∃ text x op y, e = .unsupported (.expression text) (.notEvaluable x op y) := by
  induction a with
  | value n => cases h
  | symbol k =>
    rw [evaluate, entry] at h
    split at h
    · cases h
    · cases h
      exact .inl ⟨k, rfl⟩
  | binary op a b iha ihb =>
    rcases Computation.bind_eq_error.1 h with ha | ⟨x?, -, h⟩
    · exact iha ha
    · rcases Computation.bind_eq_error.1 h with hb | ⟨y?, -, h⟩
      · exact ihb hb
      · split at h
        · split at h
          · cases h
          · cases h
            exact .inr ⟨_, _, _, _, rfl⟩
        · cases h

/-- The evaluation of the extent fails because of a configuration that lowering cannot handle. -/
def Unsupported (t : SymbolTable) (a : Extent) : Prop :=
  ∃ subject fault, t.evaluate a = .error (.unsupported subject fault)

theorem not_unsupported_value (n : Int64) : ¬ t.Unsupported (.value n) := by
  rintro ⟨subject, fault, h⟩
  cases h

/-- A symbol is found or it is not; reading it never fails otherwise. -/
theorem not_unsupported_symbol (k : SymbolId) : ¬ t.Unsupported (.symbol k) := by
  rintro ⟨subject, fault, h⟩
  unfold evaluate entry at h
  split at h
  · cases h
  · cases h

/-- An operation fails where its left operand does, or its right operand once the left one has been
read, or on values that have no result. -/
theorem unsupported_binary :
    t.Unsupported (.binary op a b) ↔
      t.Unsupported a ∨ (∃ r, t.evaluate a = .ok r) ∧ t.Unsupported b ∨
        ∃ x y, t.Evaluates a x ∧ t.Evaluates b y ∧ op.eval x y = none := by
  constructor
  · rintro ⟨subject, fault, h⟩
    simp only [evaluate, Computation.bind_eq_error] at h
    obtain ha | ⟨x?, hx, hb | ⟨y?, hy, h⟩⟩ := h
    · exact .inl ⟨subject, fault, ha⟩
    · exact .inr (.inl ⟨⟨x?, hx⟩, subject, fault, hb⟩)
    · split at h
      · next x y =>
        split at h
        · cases h
        · next hz => exact .inr (.inr ⟨x, y, hx, hy, hz⟩)
      · cases h
  · rintro (⟨subject, fault, ha⟩ | ⟨⟨r, hr⟩, subject, fault, hb⟩ | ⟨x, y, hx, hy, hz⟩)
    · exact ⟨subject, fault, by rw [evaluate, ha]; rfl⟩
    · exact ⟨subject, fault, by rw [evaluate, hr, Computation.ok_bind, hb]; rfl⟩
    · have hx : t.evaluate a = .ok (some x) := hx
      have hy : t.evaluate b = .ok (some y) := hy
      exact ⟨_, _, by simp only [evaluate, hx, hy, Computation.ok_bind, hz]; rfl⟩

/-- Over the symbols of a table, an evaluation either succeeds, with a value or without, or has met
something unsupported. -/
theorem evaluate_cases (h : a.Over (· < t.size)) :
    (∃ r, t.evaluate a = .ok r) ∨ t.Unsupported a := by
  induction a with
  | value n => exact .inl ⟨some n, rfl⟩
  | symbol k =>
    have hk : k < t.size := h k (by simp [Extent.occurrences])
    exact .inl ⟨_, by rw [evaluate, entry, List.getElem?_eq_getElem hk]; rfl⟩
  | binary op a b iha ihb =>
    obtain ⟨hovera, hoverb⟩ := Extent.over_binary.1 h
    rcases iha hovera with ⟨x?, hx⟩ | ha
    · rcases ihb hoverb with ⟨y?, hy⟩ | hb
      · simp only [unsupported_binary, Evaluates, evaluate, hx, hy, Computation.ok_bind]
        cases x? with
        | none => exact .inl ⟨none, rfl⟩
        | some x =>
          cases y? with
          | none => exact .inl ⟨none, rfl⟩
          | some y =>
            cases hz : op.eval x y with
            | none => exact .inr (.inr (.inr ⟨x, y, rfl, rfl, hz⟩))
            | some z => exact .inl ⟨some z, by simp only [hz]; rfl⟩
      · exact .inr (unsupported_binary.2 (.inr (.inl ⟨⟨x?, hx⟩, hb⟩)))
    · exact .inr (unsupported_binary.2 (.inl ha))

theorem Extends.size_le (h : t.Extends u) : t.size ≤ u.size := by
  refine Nat.le_of_not_lt fun hlt => ?_
  obtain ⟨value, hu, -⟩ := h u.size _ (List.getElem?_eq_getElem hlt)
  exact Nat.lt_irrefl _ (List.getElem?_eq_some_iff.1 hu).1

/-- What is unsupported stays so in a larger table. -/
theorem Extends.unsupported (h : t.Extends u) (ha : t.Unsupported a) : u.Unsupported a := by
  induction a with
  | value n => exact absurd ha (not_unsupported_value n)
  | symbol k => exact absurd ha (not_unsupported_symbol k)
  | binary op a b iha ihb =>
    rcases unsupported_binary.1 ha with ha | ⟨⟨r, hr⟩, hb⟩ | ⟨x, y, hx, hy, hz⟩
    · exact unsupported_binary.2 (.inl (iha ha))
    · -- The left operand was read under the smaller table, so its symbols are in the larger one.
      have hover : a.Over (· < u.size) :=
        (over_of_evaluate hr).mono fun k hk => Nat.lt_of_lt_of_le hk h.size_le
      rcases evaluate_cases hover with hok | ha
      · exact unsupported_binary.2 (.inr (.inl ⟨hok, ihb hb⟩))
      · exact unsupported_binary.2 (.inl ha)
    · exact unsupported_binary.2 (.inr (.inr ⟨x, y, h.evaluates hx, h.evaluates hy, hz⟩))

end SymbolTable

end TensorLowering
