import TensorLowering.Proofs.Symbol.Evaluation

/-!
# Larger tables

`SymbolTable.Extends` relates a table to those that know more: they have its symbols under the same
labels and keep its bindings. Creating a symbol and binding one both extend a table. What was known
stays known (`SymbolTable.Extends.evaluates`), and simplification under a table loses nothing that a
table which keeps its bindings can tell: it is absorbed by a later simplification and keeps values
(`SymbolTable.Keeps.staged_simplification`). A table in which every symbol has its value
(`SymbolTable.total`) is the largest of its size.
-/

namespace TensorLowering

namespace SymbolTable

variable {t u v : SymbolTable} {a : Extent} {n : Int64} {k : SymbolId} {label : String}

/-- The second table has every symbol of the first, with its label, and its value if it has one. -/
def Extends (t u : SymbolTable) : Prop :=
  ∀ (k : SymbolId) (e : SymbolEntry), t.entries[k]? = some e →
    ∃ value, u.entries[k]? = some ⟨e.label, value⟩ ∧ ∀ n, e.value = some n → value = some n

theorem Extends.refl (t : SymbolTable) : t.Extends t :=
  fun _ e he => ⟨e.value, he, fun _ hn => hn⟩

theorem Extends.trans (h₁ : t.Extends u) (h₂ : u.Extends v) : t.Extends v := by
  intro k e he
  obtain ⟨value₁, hu, hk₁⟩ := h₁ k e he
  obtain ⟨value₂, hv, hk₂⟩ := h₂ k _ hu
  exact ⟨value₂, hv, fun n hn => hk₂ n (hk₁ n hn)⟩

/-- A bound symbol keeps its value. -/
theorem Extends.value? (h : t.Extends u) (hk : t.value? k = some n) : u.value? k = some n := by
  obtain ⟨e, he, hn⟩ := Option.bind_eq_some_iff.1 hk
  obtain ⟨value, hu, hkeep⟩ := h k e he
  simp [SymbolTable.value?, hu, hkeep n hn]

/-! ## Steps that extend a table -/

theorem extends_create (t : SymbolTable) (label : String) : t.Extends (t.create label) := by
  intro k e he
  refine ⟨e.value, ?_, fun _ hn => hn⟩
  rw [create, List.getElem?_append_left (List.getElem?_eq_some_iff.1 he).1, he]

/-- What a successful binding does: the symbol is in the table, the value is not negative, and
either the symbol is unbound and takes the value, or it has the value already. -/
theorem bind_eq_ok {bound : Option SymbolTable} (h : t.bind k n = .ok bound) :
    ∃ e, t.entries[k]? = some e ∧ 0 ≤ n ∧
      (e.value = none ∧ bound = some (t.assign k n) ∨ e.value = some n ∧ bound = none) := by
  obtain ⟨e, he, h⟩ := Computation.bind_eq_ok.1 h
  have hentry : t.entries[k]? = some e := by
    unfold entry at he
    split at he
    · next e' he' =>
      cases he
      exact he'
    · cases he
  obtain ⟨hn, h⟩ := Computation.guard_eq_ok.1 h
  refine ⟨e, hentry, Int64.not_lt.1 hn, ?_⟩
  split at h
  · next hv =>
    cases h
    exact .inl ⟨hv, rfl⟩
  · next m hv =>
    split at h
    · next hm =>
      cases h
      exact .inr ⟨hm ▸ hv, rfl⟩
    · cases h

theorem extends_assign {e : SymbolEntry} (he : t.entries[k]? = some e) (hv : e.value = none) :
    t.Extends (t.assign k n) := by
  intro j f hf
  by_cases hjk : k = j
  · subst hjk
    cases he.symm.trans hf
    exact ⟨some n, by simp [assign, he], fun m hm => by rw [hv] at hm; cases hm⟩
  · exact ⟨f.value, by simp [assign, hjk, hf], fun _ hm => hm⟩

/-- A binding that changes the table extends it. -/
theorem extends_of_bind (h : t.bind k n = .ok (some u)) : t.Extends u := by
  obtain ⟨e, he, -, ⟨hv, hu⟩ | ⟨-, hu⟩⟩ := bind_eq_ok h
  · cases hu
    exact extends_assign he hv
  · cases hu

/-- A table stays below a larger one when a symbol takes the value it has there. -/
theorem Extends.assign (h : t.Extends u) (hk : u.value? k = some n) : (t.assign k n).Extends u := by
  intro j e he
  by_cases hjk : k = j
  · subst hjk
    simp only [SymbolTable.assign, List.getElem?_modify_eq, Option.map_eq_map,
      Option.map_eq_some_iff] at he
    obtain ⟨f, hf, rfl⟩ := he
    obtain ⟨value, hu, -⟩ := h k f hf
    refine ⟨value, hu, fun m hm => ?_⟩
    simp only [SymbolTable.value?, hu, Option.bind_some] at hk
    rw [hk, ← hm]
  · have hj : t.entries[j]? = some e := by simpa [SymbolTable.assign, hjk] using he
    exact h j e hj

/-- A symbol of the table can be bound to the value that it has in a larger table. -/
theorem Extends.bind (h : t.Extends u) (hsize : k < t.size) (hn : 0 ≤ n)
    (hk : u.value? k = some n) :
    t.bind k n = .ok none ∨ t.bind k n = .ok (some (t.assign k n)) := by
  have he : t.entries[k]? = some t.entries[k] := List.getElem?_eq_getElem hsize
  obtain ⟨value, hu, hkeep⟩ := h k _ he
  simp only [SymbolTable.value?, hu, Option.bind_some] at hk
  simp only [SymbolTable.bind, entry, he, Computation.ok_bind, if_neg (Int64.not_lt.2 hn)]
  split
  · exact .inr rfl
  · next m hm =>
    cases (hkeep m hm).symm.trans hk
    exact .inl (if_pos rfl)

/-! ## What is known stays known -/

/-- A value is kept. -/
theorem Extends.evaluates (h : t.Extends u) (ha : t.Evaluates a n) : u.Evaluates a n := by
  induction a generalizing n with
  | value m => exact evaluates_value.2 (evaluates_value.1 ha)
  | symbol k => exact evaluates_symbol.2 (h.value? (evaluates_symbol.1 ha))
  | binary op a b iha ihb =>
    obtain ⟨x, y, hx, hy, hn⟩ := evaluates_binary.1 ha
    exact evaluates_binary.2 ⟨x, y, iha hx, ihb hy, hn⟩

/-- A new symbol does not change the outcome of an evaluation that did not fail. -/
theorem evaluate_create {r : Option Int64} (h : t.evaluate a = .ok r) :
    (t.create label).evaluate a = .ok r := by
  induction a generalizing r with
  | value m => exact h
  | symbol k =>
    unfold evaluate entry at h ⊢
    split at h
    · next e he =>
      rw [create, List.getElem?_append_left (List.getElem?_eq_some_iff.1 he).1, he]
      exact h
    · cases h
  | binary op a b iha ihb =>
    simp only [evaluate, Computation.bind_eq_ok] at h ⊢
    obtain ⟨x?, hx, y?, hy, h⟩ := h
    refine ⟨x?, iha hx, y?, ihb hy, ?_⟩
    split at h
    · next x y =>
      split at h
      · next z hz => simpa only [hz] using h
      · cases h
    · exact h

/-! ## Staged simplification -/

/-- The second table keeps every binding of the first. -/
def Keeps (t u : SymbolTable) : Prop :=
  ∀ (k : SymbolId) (n : Int64), t.value? k = some n → u.value? k = some n

theorem Extends.keeps (h : t.Extends u) : t.Keeps u := fun _ _ => h.value?

/-- A simplification under a table that knows less is absorbed. -/
theorem Keeps.simplify_simplify (h : t.Keeps u) (a : Extent) :
    u.simplify (t.simplify a) = u.simplify a := by
  induction a with
  | value n => rfl
  | symbol k =>
    cases hk : t.value? k with
    | none => simp [simplify, hk]
    | some n => simp [simplify, hk, h k n hk]
  | binary op a b iha ihb => rw [simplify, simplify_combine, iha, ihb, simplify]

/-- A simplification under a table that knows less keeps the value of an extent. -/
theorem Keeps.evaluates_simplify (h : t.Keeps u) (ha : u.Evaluates a n) :
    u.Evaluates (t.simplify a) n := by
  induction a generalizing n with
  | value m => exact ha
  | symbol k =>
    cases hk : t.value? k with
    | none => simpa [simplify, hk] using ha
    | some m =>
      cases (h k m hk).symm.trans (evaluates_symbol.1 ha)
      simp [simplify, hk, evaluates_value]
  | binary op a b iha ihb =>
    obtain ⟨x, y, hx, hy, hn⟩ := evaluates_binary.1 ha
    exact (iha hx).combine (ihb hy) hn

theorem Extends.simplify_simplify (h : t.Extends u) (a : Extent) :
    u.simplify (t.simplify a) = u.simplify a := h.keeps.simplify_simplify a

theorem Extends.evaluates_simplify (h : t.Extends u) (ha : u.Evaluates a n) :
    u.Evaluates (t.simplify a) n := h.keeps.evaluates_simplify ha

/-- To simplify under what is known now, and later under what is known then, is to simplify once,
then. It does not matter either whether the arithmetic is simplified or its operands. And what has a
value later simplifies to it, and has it still after an earlier simplification. -/
theorem Keeps.staged_simplification (h : t.Keeps u) (a b : Extent) :
    u.simplify (t.simplify a) = u.simplify a ∧
      (t.simplify (a + b) = t.simplify a + t.simplify b ∧
        t.simplify (a - b) = t.simplify a - t.simplify b ∧
        t.simplify (a * b) = t.simplify a * t.simplify b ∧
        t.simplify (a.floorDiv b) = (t.simplify a).floorDiv (t.simplify b)) ∧
      ∀ n, u.Evaluates a n → u.simplify a = .value n ∧ u.Evaluates (t.simplify a) n := by
  refine ⟨h.simplify_simplify a, ⟨t.simplify_combine .add a b, t.simplify_combine .sub a b,
    t.simplify_combine .mul a b, t.simplify_combine .floorDiv a b⟩, fun n hn => ?_⟩
  exact ⟨hn.simplify_eq, h.evaluates_simplify hn⟩

/-- Two symbols, of which the first is bound to three and the second, if at all, to `n`. -/
def twoStages (n : Option Int64) : SymbolTable := ⟨[⟨"A", some 3⟩, ⟨"B", n⟩]⟩

/-- The literal `-9 // 2` that an unfolded tree comes to in two stages. -/
theorem staged_simplification_twoStages :
    (twoStages none).Keeps (twoStages (some 4)) ∧
      (twoStages (some 4)).simplify ((twoStages none).simplify
        (.binary .floorDiv (.binary .sub (.symbol 0) (.binary .mul (.symbol 0) (.symbol 1)))
          (.value 2))) = .value (-5) := by
  have hkeeps : (twoStages none).Keeps (twoStages (some 4)) := by
    intro k n hk
    match k with
    | 0 => exact hk
    | 1 => cases hk
    | k + 2 => cases hk
  obtain ⟨hstaged, -, hvalue⟩ := hkeeps.staged_simplification
    (.binary .floorDiv (.binary .sub (.symbol 0) (.binary .mul (.symbol 0) (.symbol 1))) (.value 2))
    (.value 0)
  exact ⟨hkeeps, hstaged.trans (hvalue (-5) (by decide)).1⟩

/-! ## Tables that give every symbol a value -/

/-- The table of symbols with the given labels, all bound. -/
def total (labels : List String) (value : SymbolId → Int64) : SymbolTable :=
  ⟨labels.mapIdx fun k label => ⟨label, some (value k)⟩⟩

section
variable {labels others : List String} {value : SymbolId → Int64}

theorem size_total : (total labels value).size = labels.length := List.length_mapIdx

theorem value?_total (hk : k < labels.length) : (total labels value).value? k = some (value k) := by
  simp [total, SymbolTable.value?, List.getElem?_eq_getElem hk]

theorem complete_total : (total labels value).Complete := by
  intro e he
  obtain ⟨k, hk, rfl⟩ := List.mem_mapIdx.1 he
  rfl

/-- More symbols make a larger table. -/
theorem total_extends (labels others : List String) (value : SymbolId → Int64) :
    (total labels value).Extends (total (labels ++ others) value) := by
  intro k e he
  have hk : k < labels.length := by
    simpa [total] using (List.getElem?_eq_some_iff.1 he).1
  refine ⟨e.value, ?_, fun n hn => hn⟩
  simp only [total, List.getElem?_mapIdx] at he ⊢
  rw [List.getElem?_append_left hk, he]

/-- A complete table is the largest of its size. -/
theorem Complete.eq_of_extends (ht : t.Complete) (h : t.Extends u) (hsize : t.size = u.size) :
    t = u := by
  suffices hentries : t.entries = u.entries by
    cases t
    cases u
    exact congrArg SymbolTable.mk hentries
  refine List.ext_getElem? fun k => ?_
  cases hk : t.entries[k]? with
  | none =>
    rw [List.getElem?_eq_none_iff] at hk
    exact (List.getElem?_eq_none (Nat.le_trans (Nat.le_of_eq hsize.symm) hk)).symm
  | some e =>
    obtain ⟨n, hn⟩ := Option.isSome_iff_exists.1 (ht e (List.mem_of_getElem? hk))
    obtain ⟨value, hu, hkeep⟩ := h k e hk
    rw [hu, hkeep n hn, ← hn]

end

end SymbolTable

end TensorLowering
