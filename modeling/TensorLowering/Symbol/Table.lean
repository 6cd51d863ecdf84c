import TensorLowering.Error.Basic
import TensorLowering.Extent.Printer

/-!
# Symbols and their bindings

A `SymbolTable` holds the label of every symbol and the value it is bound to, if any. A symbol is
bound at most once, to a value that is not negative (`SymbolTable.bind`). Three readings of an
extent go through a table: `SymbolTable.evaluate` computes it exactly or reports why it cannot,
`SymbolTable.simplify` puts in what is known, and `SymbolTable.render` writes it with labels.
-/

namespace TensorLowering

/-- The label of a symbol and its value, once bound. -/
structure SymbolEntry where
  label : String
  value : Option Int64
  deriving DecidableEq, Repr

/-- The symbols of one graph, by index. -/
structure SymbolTable where
  entries : List SymbolEntry
  deriving DecidableEq, Repr

namespace SymbolTable

/-- The table without symbols. -/
def empty : SymbolTable := ⟨[]⟩

/-- The number of symbols. -/
def size (t : SymbolTable) : Nat := t.entries.length

/-- The table with a new unbound symbol, whose index is the old size. -/
def create (t : SymbolTable) (label : String) : SymbolTable :=
  ⟨t.entries ++ [⟨label, none⟩]⟩

/-! ## Looking up and binding -/

/-- The entry of a symbol. -/
def entry (t : SymbolTable) (k : SymbolId) : Lowering SymbolEntry :=
  match t.entries[k]? with
  | some e => .ok e
  | none => .error (.unknownSymbol k)

/-- The value of a symbol that is in the table and bound. -/
def value? (t : SymbolTable) (k : SymbolId) : Option Int64 :=
  t.entries[k]?.bind SymbolEntry.value

/-- The spelling of a symbol: its label, or its index if the table does not have it. -/
def label (t : SymbolTable) (k : SymbolId) : String :=
  match t.entries[k]? with
  | some e => e.label
  | none => Extent.symbolText k

/-- The table in which a symbol has a value, whatever it had before. -/
def assign (t : SymbolTable) (k : SymbolId) (value : Int64) : SymbolTable :=
  ⟨t.entries.modify k fun e => ⟨e.label, some value⟩⟩

/-- Binds a symbol for good. The answer is the larger table, or `none` when the symbol already has
this value. -/
def bind (t : SymbolTable) (k : SymbolId) (value : Int64) : Lowering (Option SymbolTable) := do
  let e ← t.entry k
  if value < 0 then
    throw (.unsupported (.symbol e.label) (.negativeBinding value))
  match e.value with
  | none => pure (some (t.assign k value))
  | some bound =>
    if bound = value then pure none
    else throw (.symbolConflict e.label bound value)

/-! ## Reading extents through a table -/

/-- An extent written with the labels of its symbols. -/
def render (t : SymbolTable) (a : Extent) : String := a.render t.label

/-- Whether every symbol of the extent is bound. -/
def resolves (t : SymbolTable) : Extent → Bool
  | .value _ => true
  | .symbol k => (t.value? k).isSome
  | .binary _ lhs rhs => t.resolves lhs && t.resolves rhs

/-- The value of an extent, or `none` while a symbol is unbound. Both operands are read before
either is found missing, so a failure on the right wins over an unbound symbol on the left. -/
def evaluate (t : SymbolTable) : Extent → Lowering (Option Int64)
  | .value n => .ok (some n)
  | .symbol k => (t.entry k).map SymbolEntry.value
  | .binary op lhs rhs => do
    let a ← t.evaluate lhs
    let b ← t.evaluate rhs
    match a, b with
    | some x, some y =>
      match op.eval x y with
      | some z => pure (some z)
      | none =>
        throw (.unsupported (.expression (t.render (.binary op lhs rhs)))
          (.notEvaluable x op y))
    | _, _ => pure none

/-- The extent with bound symbols replaced by their values and folded on the way up. -/
def simplify (t : SymbolTable) : Extent → Extent
  | .value n => .value n
  | .symbol k =>
    match t.value? k with
    | some n => .value n
    | none => .symbol k
  | .binary op lhs rhs => Extent.combine op (t.simplify lhs) (t.simplify rhs)

/-! ## Elementary laws -/

theorem size_create (t : SymbolTable) (label : String) : (t.create label).size = t.size + 1 := by
  simp [create, size]

theorem size_assign (t : SymbolTable) (k : SymbolId) (value : Int64) :
    (t.assign k value).size = t.size := by
  simp [assign, size]

theorem value?_create (t : SymbolTable) (label : String) (k : SymbolId) :
    (t.create label).value? k = t.value? k := by
  unfold create value?
  rcases Nat.lt_trichotomy k t.entries.length with h | h | h
  · rw [List.getElem?_append_left h]
  · subst h
    simp
  · rw [List.getElem?_append_right (Nat.le_of_lt h),
      List.getElem?_eq_none (by simp; omega), List.getElem?_eq_none (Nat.le_of_lt h)]

theorem value?_assign_of_ne (t : SymbolTable) {j k : SymbolId} (value : Int64) (h : j ≠ k) :
    (t.assign j value).value? k = t.value? k := by
  simp [assign, value?, h]

theorem value?_assign_self (t : SymbolTable) {k : SymbolId} (value : Int64) (h : k < t.size) :
    (t.assign k value).value? k = some value := by
  have hk : t.entries[k]? = some t.entries[k] := List.getElem?_eq_getElem h
  simp [assign, value?, hk]

end SymbolTable

end TensorLowering
