import TensorLowering.Proofs.Symbol.Occurrence

/-!
# Evaluation against integers

What an extent denotes on integers is said without words and without failures: literals and bound
symbols are numbers, operations are those of the integers, and a quotient exists where the divisor
is not zero (`SymbolTable.Denotes`). An evaluation that gives a value gives the number that the
extent denotes (`SymbolTable.Evaluates.denotes`). It fails where a symbol is not in the table, or
where a part of the extent that mentions bound symbols only divides by zero or denotes a number that
no word holds (`SymbolTable.evaluate_eq_error_iff`), and it stays open exactly while a symbol is
unbound. The check for resolution and the list of symbols say the same
(`SymbolTable.evaluate_exact`).
-/

namespace TensorLowering

/-! ## Parts of an extent -/

namespace Extent

variable {a b c : Extent} {op : BinaryOp} {k : SymbolId}

/-- The first extent is the second or stands somewhere in it. -/
inductive Part : Extent → Extent → Prop
  | self (a : Extent) : Part a a
  | left {c a b : Extent} {op : BinaryOp} (h : Part c a) : Part c (binary op a b)
  | right {c a b : Extent} {op : BinaryOp} (h : Part c b) : Part c (binary op a b)

theorem part_symbol : c.Part (symbol k) ↔ c = symbol k := by
  refine ⟨fun h => ?_, fun h => h ▸ .self _⟩
  cases h
  rfl

theorem part_binary : c.Part (binary op a b) ↔ c = binary op a b ∨ c.Part a ∨ c.Part b := by
  constructor
  · intro h
    cases h with
    | self => exact .inl rfl
    | left h => exact .inr (.inl h)
    | right h => exact .inr (.inr h)
  · rintro (rfl | h | h)
    · exact .self _
    · exact .left h
    · exact .right h

/-- The symbols of an extent are the symbols that stand in it. -/
theorem mem_symbols_iff_part : k ∈ a.symbols ↔ (symbol k).Part a := by
  rw [mem_symbols]
  induction a with
  | value n =>
    refine ⟨nofun, fun h => ?_⟩
    cases h
  | symbol j => rw [occurrences, List.mem_singleton, part_symbol, symbol.injEq]
  | binary op a b iha ihb =>
    rw [occurrences, List.mem_append, part_binary, iha, ihb]
    simp

/-- The list of symbols names each of them once. -/
theorem nodup_symbols (a : Extent) : a.symbols.Nodup := Computation.nodup_eraseDups _

end Extent

namespace SymbolTable

variable {t : SymbolTable} {op : BinaryOp} {a b c : Extent} {k : SymbolId} {n : Int64} {y z : Int}

/-! ## What an extent denotes -/

/-- The integer that an extent denotes when its symbols are the integers they are bound to. -/
inductive Denotes (t : SymbolTable) : Extent → Int → Prop
  | value (n : Int64) : Denotes t (.value n) n.toInt
  | symbol {k : SymbolId} {n : Int64} (h : t.value? k = some n) : Denotes t (.symbol k) n.toInt
  | add {a b : Extent} {x y : Int} (ha : Denotes t a x) (hb : Denotes t b y) :
    Denotes t (.binary .add a b) (x + y)
  | sub {a b : Extent} {x y : Int} (ha : Denotes t a x) (hb : Denotes t b y) :
    Denotes t (.binary .sub a b) (x - y)
  | mul {a b : Extent} {x y : Int} (ha : Denotes t a x) (hb : Denotes t b y) :
    Denotes t (.binary .mul a b) (x * y)
  | floorDiv {a b : Extent} {x y : Int} (ha : Denotes t a x) (hb : Denotes t b y) (hy : y ≠ 0) :
    Denotes t (.binary .floorDiv a b) (x.fdiv y)

theorem denotes_value : t.Denotes (.value n) z ↔ z = n.toInt := by
  refine ⟨fun h => ?_, fun h => h ▸ .value n⟩
  cases h
  rfl

theorem denotes_symbol : t.Denotes (.symbol k) z ↔ ∃ n, t.value? k = some n ∧ z = n.toInt := by
  refine ⟨fun h => ?_, fun ⟨n, hn, hz⟩ => hz ▸ .symbol hn⟩
  cases h with
  | symbol hn => exact ⟨_, hn, rfl⟩

/-- An operation node denotes the exact result on what its operands denote. -/
theorem denotes_binary :
    t.Denotes (.binary op a b) z ↔
      ∃ x y, t.Denotes a x ∧ t.Denotes b y ∧ op.exact x y = some z := by
  constructor
  · intro h
    cases h with
    | add ha hb | sub ha hb | mul ha hb => exact ⟨_, _, ha, hb, rfl⟩
    | floorDiv ha hb hy => exact ⟨_, _, ha, hb, if_neg hy⟩
  · intro ⟨x, y, ha, hb, hz⟩
    cases op with
    | add => exact Option.some.inj hz ▸ .add ha hb
    | sub => exact Option.some.inj hz ▸ .sub ha hb
    | mul => exact Option.some.inj hz ▸ .mul ha hb
    | floorDiv =>
      by_cases hy : y = 0
      · rw [BinaryOp.exact, if_pos hy] at hz
        cases hz
      · rw [BinaryOp.exact, if_neg hy] at hz
        exact Option.some.inj hz ▸ .floorDiv ha hb hy

/-- An extent denotes at most one integer. -/
theorem Denotes.unique (hy : t.Denotes a y) (hz : t.Denotes a z) : y = z := by
  induction a generalizing y z with
  | value n => exact (denotes_value.1 hy).trans (denotes_value.1 hz).symm
  | symbol k =>
    obtain ⟨m, hm, rfl⟩ := denotes_symbol.1 hy
    obtain ⟨n, hn, rfl⟩ := denotes_symbol.1 hz
    rw [Option.some.inj (hm.symm.trans hn)]
  | binary op a b iha ihb =>
    obtain ⟨x₁, y₁, ha₁, hb₁, h₁⟩ := denotes_binary.1 hy
    obtain ⟨x₂, y₂, ha₂, hb₂, h₂⟩ := denotes_binary.1 hz
    rw [iha ha₁ ha₂, ihb hb₁ hb₂] at h₁
    exact Option.some.inj (h₁.symm.trans h₂)

/-- The value of an extent is the number it denotes. -/
theorem Evaluates.denotes (h : t.Evaluates a n) : t.Denotes a n.toInt := by
  induction a generalizing n with
  | value m => exact evaluates_value.1 h ▸ .value m
  | symbol k => exact .symbol (evaluates_symbol.1 h)
  | binary op a b iha ihb =>
    obtain ⟨x, y, hx, hy, hn⟩ := evaluates_binary.1 h
    exact denotes_binary.2 ⟨_, _, iha hx, ihb hy, BinaryOp.eval_eq_some_iff.1 hn⟩

/-! ## Bound symbols -/

/-- The check for resolution asks that every symbol is bound. -/
theorem resolves_iff : t.resolves a = true ↔ ∀ k ∈ a.symbols, (t.value? k).isSome := by
  simp only [Extent.mem_symbols]
  induction a with
  | value n => simp [resolves, Extent.occurrences]
  | symbol k => simp [resolves, Extent.occurrences]
  | binary op a b iha ihb =>
    rw [resolves, Bool.and_eq_true, iha, ihb, Extent.occurrences, List.forall_mem_append]

/-- An evaluation that does not fail gives a value exactly if every symbol is bound. -/
theorem isSome_iff_resolves {r : Option Int64} (h : t.evaluate a = .ok r) :
    r.isSome ↔ t.resolves a = true := by
  induction a generalizing r with
  | value n =>
    cases h
    simp [resolves]
  | symbol k =>
    obtain ⟨e, he, rfl⟩ := Computation.map_eq_ok.1 h
    unfold entry at he
    split at he
    · next e' he' =>
      cases he
      simp [resolves, value?, he']
    · cases he
  | binary op a b iha ihb =>
    simp only [evaluate, Computation.bind_eq_ok] at h
    obtain ⟨x?, hx, y?, hy, h⟩ := h
    rw [resolves, Bool.and_eq_true, ← iha hx, ← ihb hy]
    split at h
    · split at h
      · cases h
        simp
      · cases h
    · next hopen =>
      cases h
      cases x? with
      | none => simp
      | some x =>
        cases y? with
        | none => simp
        | some y => exact absurd rfl (hopen x y rfl)

/-! ## Where an evaluation fails -/

/-- The extent divides by what denotes zero, or denotes an integer that no word holds. -/
def Fails (t : SymbolTable) (c : Extent) : Prop :=
  (∃ a b, c = .binary .floorDiv a b ∧ t.Denotes b 0) ∨ ∃ z, t.Denotes c z ∧ ¬ FitsWord z

/-- An evaluation that does not fail evaluates every part without failure. -/
theorem exists_evaluate_of_part {r : Option Int64} (hc : c.Part a) (h : t.evaluate a = .ok r) :
    ∃ s, t.evaluate c = .ok s := by
  induction hc generalizing r with
  | self => exact ⟨r, h⟩
  | left _ ih =>
    obtain ⟨x?, hx, -⟩ := Computation.bind_eq_ok.1 h
    exact ih hx
  | right _ ih =>
    obtain ⟨x?, -, h⟩ := Computation.bind_eq_ok.1 h
    obtain ⟨y?, hy, -⟩ := Computation.bind_eq_ok.1 h
    exact ih hy

/-- An extent with a value does not fail. -/
theorem Evaluates.not_fails (h : t.Evaluates c n) : ¬ t.Fails c := by
  intro hfails
  rcases hfails with ⟨a, b, rfl, hzero⟩ | ⟨z, hz, hword⟩
  · obtain ⟨x, y, -, hy, hn⟩ := evaluates_binary.1 h
    have hexact := BinaryOp.eval_eq_some_iff.1 hn
    rw [BinaryOp.exact, if_pos (hy.denotes.unique hzero)] at hexact
    cases hexact
  · rw [hz.unique h.denotes] at hword
    exact hword (fitsWord_toInt n)

/-- An operation on values that gives none fails. -/
theorem Evaluates.fails {x y : Int64} (hx : t.Evaluates a x) (hy : t.Evaluates b y)
    (h : op.eval x y = none) : t.Fails (.binary op a b) := by
  cases hexact : op.exact x.toInt y.toInt with
  | none =>
    cases op with
    | add | sub | mul => cases hexact
    | floorDiv =>
      have hzero : y.toInt = 0 := by
        by_contra hne
        rw [BinaryOp.exact, if_neg hne] at hexact
        cases hexact
      exact .inl ⟨a, b, rfl, hzero ▸ hy.denotes⟩
  | some z =>
    rw [BinaryOp.eval, hexact, Option.bind_some, word?_eq_none_iff] at h
    exact .inr ⟨z, denotes_binary.2 ⟨_, _, hx.denotes, hy.denotes, hexact⟩, h⟩

/-- A part with bound symbols does not fail where an evaluation does not. -/
theorem not_fails_of_part {r : Option Int64} (hc : c.Part a) (h : t.evaluate a = .ok r)
    (hbound : ∀ k ∈ c.symbols, (t.value? k).isSome) : ¬ t.Fails c := by
  obtain ⟨s, hs⟩ := exists_evaluate_of_part hc h
  have hsome : s.isSome := (isSome_iff_resolves hs).2 (resolves_iff.2 hbound)
  obtain ⟨n, rfl⟩ := Option.isSome_iff_exists.1 hsome
  exact Evaluates.not_fails hs

/-- An evaluation that fails has met a symbol that is not in the table, or a part with bound symbols
that fails. -/
theorem exists_fault {e : LoweringError} (h : t.evaluate a = .error e) :
    (∃ k, (Extent.symbol k).Part a ∧ t.size ≤ k) ∨
      ∃ c, c.Part a ∧ (∀ k ∈ c.symbols, (t.value? k).isSome) ∧ t.Fails c := by
  induction a with
  | value n => cases h
  | symbol k =>
    refine .inl ⟨k, .self _, ?_⟩
    by_contra hk
    rw [evaluate, entry, List.getElem?_eq_getElem (Nat.lt_of_not_le hk)] at h
    cases h
  | binary op a b iha ihb =>
    rcases Computation.bind_eq_error.1 h with ha | ⟨x?, hx, h⟩
    · rcases iha ha with ⟨k, hk, hsize⟩ | ⟨c, hc, hfails⟩
      · exact .inl ⟨k, .left hk, hsize⟩
      · exact .inr ⟨c, .left hc, hfails⟩
    · rcases Computation.bind_eq_error.1 h with hb | ⟨y?, hy, h⟩
      · rcases ihb hb with ⟨k, hk, hsize⟩ | ⟨c, hc, hfails⟩
        · exact .inl ⟨k, .right hk, hsize⟩
        · exact .inr ⟨c, .right hc, hfails⟩
      · -- Both operands have values, so it is the operation on them that gives none.
        split at h
        · split at h
          · cases h
          · next x y hnone =>
            have hbound : t.resolves (.binary op a b) = true := by
              rw [resolves, (isSome_iff_resolves hx).1 rfl, (isSome_iff_resolves hy).1 rfl]
              rfl
            exact .inr ⟨_, .self _, resolves_iff.1 hbound, Evaluates.fails hx hy hnone⟩
        · cases h

/-- An evaluation fails exactly where a symbol is not in the table or a part with bound symbols
fails. -/
theorem evaluate_eq_error_iff :
    (∃ e, t.evaluate a = .error e) ↔
      (∃ k, (Extent.symbol k).Part a ∧ t.size ≤ k) ∨
        ∃ c, c.Part a ∧ (∀ k ∈ c.symbols, (t.value? k).isSome) ∧ t.Fails c := by
  refine ⟨fun ⟨e, he⟩ => exists_fault he, fun h => ?_⟩
  cases hr : t.evaluate a with
  | error e => exact ⟨e, rfl⟩
  | ok r =>
    exfalso
    rcases h with ⟨k, hk, hsize⟩ | ⟨c, hc, hbound, hfails⟩
    · have hk : k ∈ a.occurrences := Extent.mem_symbols.1 (Extent.mem_symbols_iff_part.2 hk)
      exact Nat.not_lt_of_le hsize (over_of_evaluate hr k hk)
    · exact not_fails_of_part hc hr hbound hfails

/-! ## Exactness -/

/-- An evaluation fails exactly where a symbol is missing or a part with bound symbols fails. One
that does not fail is open exactly if a symbol is unbound, and otherwise gives the integer that the
extent denotes. The check for resolution and the list of symbols, which names each symbol of the
extent once, tell which of the two it is. -/
theorem evaluate_exact (t : SymbolTable) (a : Extent) :
    ((∃ e, t.evaluate a = .error e) ↔
      (∃ k, (Extent.symbol k).Part a ∧ t.size ≤ k) ∨
        ∃ c, c.Part a ∧ (∀ k ∈ c.symbols, (t.value? k).isSome) ∧ t.Fails c) ∧
      (∀ r, t.evaluate a = .ok r →
        (r = none ↔ ∃ k, (Extent.symbol k).Part a ∧ t.value? k = none) ∧
          (∀ n, r = some n → ∀ z, t.Denotes a z ↔ z = n.toInt) ∧
          (r.isSome ↔ t.resolves a = true)) ∧
      (t.resolves a = true ↔ ∀ k ∈ a.symbols, (t.value? k).isSome) ∧
      a.symbols.Nodup ∧ ∀ k, k ∈ a.symbols ↔ (Extent.symbol k).Part a := by
  refine ⟨evaluate_eq_error_iff, ?_, resolves_iff, a.nodup_symbols,
    fun k => Extent.mem_symbols_iff_part⟩
  intro r hr
  have hiff : r.isSome ↔ t.resolves a = true := isSome_iff_resolves hr
  refine ⟨?_, ?_, hiff⟩
  · rw [← Option.not_isSome_iff_eq_none, hiff, resolves_iff]
    simp only [Extent.mem_symbols_iff_part]
    push Not
    simp
  · intro n hn z
    subst hn
    have hdenotes : t.Denotes a n.toInt := Evaluates.denotes hr
    exact ⟨fun hz => hz.unique hdenotes, fun hz => hz ▸ hdenotes⟩

/-- A table in which the first of two symbols is unbound. -/
def halfBound : SymbolTable := ⟨[⟨"M", none⟩, ⟨"N", some 3⟩]⟩

/-- The quotient `M * (4 // (N - 3))` fails where `N` is three, whatever `M` is going to be. -/
theorem evaluate_exact_halfBound :
    ∃ e, halfBound.evaluate
      (.binary .mul (.symbol 0)
        (.binary .floorDiv (.value 4) (.binary .sub (.symbol 1) (.value 3)))) = .error e := by
  have hzero : halfBound.Denotes (.binary .sub (.symbol 1) (.value 3)) 0 :=
    denotes_binary.2 ⟨(3 : Int64).toInt, (3 : Int64).toInt, .symbol rfl, .value 3, by decide⟩
  refine (evaluate_exact halfBound _).1.2 (.inr ⟨_, .right (.self _), ?_, .inl ⟨_, _, rfl, hzero⟩⟩)
  decide

end SymbolTable

end TensorLowering
