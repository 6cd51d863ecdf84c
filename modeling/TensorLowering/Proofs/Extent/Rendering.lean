import TensorLowering.Proofs.Extent.Reading
import TensorLowering.Proofs.Symbol.Occurrence

/-!
# Writing extents and reading them

Writing an extent loses nothing. Where every symbol has a name that means it, the text of an extent
reads as that extent (`Extent.reading_render`) and, since the grammar is unambiguous, as no other
(`Extent.reading_render_iff`). Symbols that are written by index have such names, and so have the
symbols of a table whose labels are distinct names (`Extent.render_faithful`).
-/

namespace TensorLowering

namespace Extent

/-! ## Written extents -/

section
variable {names : String → Option SymbolId} {text : String} {a b : Extent} {k : SymbolId}

/-- The tightest level at which the text of an extent reads without parentheses around it. -/
def level : Extent → Level
  | binary .add _ _ | binary .sub _ _ => .sum
  | binary .mul _ _ | binary .floorDiv _ _ => .product
  | value _ | symbol _ => .operand

theorem tightness_level (a : Extent) : a.level.tightness = a.precedence := by
  cases a with
  | value n => rfl
  | symbol k => rfl
  | binary op a b => cases op <;> rfl

/-- An operand reads at a level if parentheses stand around it unless it binds tightly enough. -/
theorem Reading.parenthesized {outer : Level} {needed : Bool} (h : Reading names a.level text a)
    (hle : needed = false → outer.tightness ≤ a.precedence) :
    Reading names outer (parenthesized needed text) a := by
  unfold TensorLowering.parenthesized
  cases needed with
  | true => exact h.loosen_sum.grouped.loosen (by cases outer <;> decide)
  | false =>
    rw [← tightness_level] at hle
    exact h.loosen (hle rfl)

/-- The label of a symbol is a name that means it. -/
def Spelled (label : SymbolId → String) (names : String → Option SymbolId) (k : SymbolId) : Prop :=
  IsName (label k) ∧ names (label k) = some k

/-- The text of an extent reads as that extent. -/
theorem reading_render {label : SymbolId → String} (h : a.Over (Spelled label names)) :
    Reading names a.level (a.render label) a := by
  induction a with
  | value n => exact reading_literal n
  | symbol k =>
    obtain ⟨hname, hk⟩ := over_symbol.1 h
    exact reading_symbol hname hk
  | binary op a b iha ihb =>
    obtain ⟨ha, hb⟩ := over_binary.1 h
    -- The operand levels of an operator are what the printer compares precedences for.
    have hleft : decide (a.precedence < op.precedence) = false → op.precedence ≤ a.precedence :=
      fun hn => Nat.le_of_not_lt (of_decide_eq_false hn)
    have hright : decide (b.precedence ≤ op.precedence) = false → op.precedence < b.precedence :=
      fun hn => Nat.lt_of_not_le (of_decide_eq_false hn)
    cases op with
    | add => exact .added (.inl rfl) ((iha ha).parenthesized hleft) ((ihb hb).parenthesized hright)
    | sub => exact .added (.inr rfl) ((iha ha).parenthesized hleft) ((ihb hb).parenthesized hright)
    | mul =>
      exact .multiplied (.inl rfl) ((iha ha).parenthesized hleft) ((ihb hb).parenthesized hright)
    | floorDiv =>
      exact .multiplied (.inr rfl) ((iha ha).parenthesized hleft) ((ihb hb).parenthesized hright)

/-- The text of an extent reads as that extent and as no other. -/
theorem reading_render_iff {label : SymbolId → String} (h : a.Over (Spelled label names)) :
    Reading names .sum (a.render label) b ↔ b = a := by
  have ha : Reading names .sum (a.render label) a := (reading_render h).loosen_sum
  exact ⟨fun hb => hb.unique ha, fun hb => hb ▸ ha⟩

/-- Extents with the same text are the same. -/
theorem render_injective {label : SymbolId → String} (ha : a.Over (Spelled label names))
    (hb : b.Over (Spelled label names)) (h : a.render label = b.render label) : a = b :=
  (reading_render_iff hb).1 (h ▸ (reading_render_iff ha).2 rfl)

end

/-! ## What names mean -/

/-- The symbol that a text spells by index. -/
def symbolIndex? (text : String) : Option SymbolId :=
  match text.toList with
  | '$' :: digits => natural? digits
  | _ => none

/-- The spelling of a symbol by index is a name that means it. -/
theorem spelled_symbolText (k : SymbolId) : Spelled symbolText symbolIndex? k := by
  have hchars : (symbolText k).toList = '$' :: (toString k).toList := String.toList_append
  refine ⟨⟨by simp [hchars], ?_, by simp [hchars]⟩, ?_⟩
  · rw [hchars]
    refine List.forall_mem_cons.2 ⟨by decide, fun ch hch => ?_⟩
    exact isWordChar_of_isDigit (isDigit_of_mem_toString hch)
  · rw [symbolIndex?, hchars]
    exact natural?_toString k

end Extent

/-- The first symbol of the table with a label. -/
def SymbolTable.symbolNamed? (t : SymbolTable) (name : String) : Option SymbolId :=
  t.entries.findIdx? fun e => e.label == name

/-- In a table whose labels are distinct names, the label of a symbol is a name that means it. -/
theorem SymbolTable.spelled_label {t : SymbolTable} {k : SymbolId}
    (hnames : ∀ e ∈ t.entries, Extent.IsName e.label)
    (hdistinct : (t.entries.map SymbolEntry.label).Nodup) (hk : k < t.size) :
    Extent.Spelled t.label t.symbolNamed? k := by
  have hlabel : t.label k = t.entries[k].label := by
    rw [label, List.getElem?_eq_getElem hk]
  unfold Extent.Spelled
  rw [hlabel]
  refine ⟨hnames _ (List.getElem_mem hk), List.findIdx?_eq_some_iff_getElem.2 ⟨hk, by simp, ?_⟩⟩
  intro j hj heq
  have hne := List.pairwise_iff_getElem.1 (List.pairwise_map.1 hdistinct)
  exact hne j k (Nat.lt_trans hj hk) hk hj (eq_of_beq heq)

namespace Extent

/-- Writing an extent loses no structure. Its text by index reads as the extent and as no other, so
different extents have different texts. The same holds of its text with the labels of a table that
has all its symbols, if the labels are distinct names. -/
theorem render_faithful (a b : Extent) :
    (Reading symbolIndex? .sum a.text b ↔ b = a) ∧ (a.text = b.text → a = b) ∧
      ∀ t : SymbolTable, (∀ e ∈ t.entries, IsName e.label) →
        (t.entries.map SymbolEntry.label).Nodup → a.Over (· < t.size) →
          (Reading t.symbolNamed? .sum (t.render a) b ↔ b = a) ∧
            (b.Over (· < t.size) → t.render a = t.render b → a = b) := by
  have hindex : ∀ c : Extent, c.Over (Spelled symbolText symbolIndex?) :=
    fun _ k _ => spelled_symbolText k
  refine ⟨reading_render_iff (hindex a), render_injective (hindex a) (hindex b), ?_⟩
  intro t hnames hdistinct ha
  have hlabel : ∀ k, k < t.size → Spelled t.label t.symbolNamed? k :=
    fun k hk => SymbolTable.spelled_label hnames hdistinct hk
  refine ⟨reading_render_iff (ha.mono hlabel), fun hb => ?_⟩
  exact render_injective (ha.mono hlabel) (hb.mono hlabel)

/-- A table of two symbols. -/
def rowsAndColumns : SymbolTable := ⟨[⟨"rows", none⟩, ⟨"columns", some 4⟩]⟩

/-- A difference whose right operand is a difference, with a negative literal. -/
def nestedDifference : Extent := .binary .sub (.symbol 0) (.binary .sub (.symbol 1) (.value (-3)))

/-- The parentheses on the right tell the two ways apart in which differences can nest. -/
theorem render_faithful_nestedDifference :
    rowsAndColumns.render nestedDifference = "rows - (columns - -3)" ∧
      Reading rowsAndColumns.symbolNamed? .sum (rowsAndColumns.render nestedDifference)
        nestedDifference ∧
      ¬ Reading rowsAndColumns.symbolNamed? .sum (rowsAndColumns.render nestedDifference)
        (.binary .sub (.binary .sub (.symbol 0) (.symbol 1)) (.value (-3))) := by
  refine ⟨by decide, ?_, ?_⟩
  · exact ((render_faithful _ _).2.2 rowsAndColumns (by decide) (by decide) (by decide)).1.2 rfl
  · intro hread
    have heq :=
      ((render_faithful _ _).2.2 rowsAndColumns (by decide) (by decide) (by decide)).1.1 hread
    exact absurd heq (by decide)

end Extent

end TensorLowering
