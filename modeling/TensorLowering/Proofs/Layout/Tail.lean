import TensorLowering.Proofs.Layout.Tiling
import TensorLowering.Proofs.Symbol.Extension

/-!
# The symbolic tail

Tensors of symbolic size come last, each at the running sum of what stands before it. The sums are
simplified as they grow, but their summands are simplified already, so a sum is what the arithmetic
makes of its two summands and has a value only if both have one. A table that gives the end of the
tail a value therefore gives one to every offset and size in it, and the tail is tiled
(`symbolicTail_tiles`). The end is a literal only when there is no tail (`symbolicTail_asValue`).
-/

namespace TensorLowering

variable {t u : SymbolTable} {base size : Extent} {items : List SizedTensor}

/-- The sum of two simplified extents is simplified. -/
theorem simplify_add_of_simplified (hbase : t.simplify base = base)
    (hsize : t.simplify size = size) : t.simplify (base + size) = base + size := by
  refine (t.simplify_combine .add base size).trans ?_
  rw [hbase, hsize]
  rfl

/-- The regions of the tail are those of its tensors, in order. -/
theorem symbolicTail_regions (t : SymbolTable) (base : Extent) (items : List SizedTensor) :
    List.Forall₂ (fun p a => a.IsOf .dynamic p.1 p.2) items (symbolicTail t base items).1 := by
  induction items generalizing base with
  | nil => exact .nil
  | cons p rest ih => exact .cons ⟨rfl, rfl, rfl, rfl⟩ (ih _)

/-- A sum with a symbolic summand on the right is no literal. -/
theorem asValue_add_eq_none (base : Extent) (hsize : size.asValue = none) :
    (base + size).asValue = none := by
  rcases Extent.combine_cases .add base size with ⟨x, y, z, -, rfl, -, -⟩ | hl | hc
  · cases hsize
  · change (Extent.combine .add base size).asValue = none
    generalize Extent.combine .add base size = c at hl
    cases hl with
    | zeroAdd => exact hsize
    | addZero => cases hsize
  · change (Extent.combine .add base size).asValue = none
    rw [hc]
    rfl

/-- The end of the tail is a literal only when there is no tail. -/
theorem symbolicTail_asValue {n : Int64} (hbase : t.simplify base = base)
    (hsizes : ∀ p ∈ items, t.simplify p.2 = p.2 ∧ p.2.asValue = none)
    (h : (symbolicTail t base items).2.asValue = some n) : items = [] ∧ base = .value n := by
  induction items generalizing base with
  | nil => exact ⟨rfl, Extent.asValue_eq_some_iff.1 h⟩
  | cons p rest ih =>
    obtain ⟨⟨hsimple, hnone⟩, hrest⟩ := List.forall_mem_cons.1 hsizes
    have hsum := simplify_add_of_simplified hbase hsimple
    obtain ⟨-, hvalue⟩ := ih (by rw [hsum, hsum]) hrest h
    have hsymbolic := asValue_add_eq_none base hnone
    rw [← hsum, hvalue] at hsymbolic
    cases hsymbolic

/-- A region of the tail has a literal offset only when it is the first, and the tail begins
there. -/
theorem symbolicTail_offset {n : Int64} {a : Allocation} (hbase : t.simplify base = base)
    (hsizes : ∀ p ∈ items, t.simplify p.2 = p.2 ∧ p.2.asValue = none)
    (ha : a ∈ (symbolicTail t base items).1) (hn : a.offset = .value n) : base = .value n := by
  induction items generalizing base with
  | nil => cases ha
  | cons p rest ih =>
    obtain ⟨⟨hsimple, hnone⟩, hrest⟩ := List.forall_mem_cons.1 hsizes
    rcases List.mem_cons.1 ha with rfl | ha
    · exact hn
    · have hsum := simplify_add_of_simplified hbase hsimple
      have hvalue := ih (by rw [hsum, hsum]) hrest ha
      have hsymbolic := asValue_add_eq_none base hnone
      rw [← hsum, hvalue] at hsymbolic
      cases hsymbolic

/-- Under a table that gives the end of the tail a value, the tail is tiled, if no size in it is
negative there. -/
theorem symbolicTail_tiles {stop : Int64} (hbase : t.simplify base = base)
    (hsizes : ∀ p ∈ items, t.simplify p.2 = p.2)
    (hnonneg : ∀ p ∈ items, ∀ n, u.Evaluates p.2 n → 0 ≤ n.toInt)
    (hstop : u.Evaluates (symbolicTail t base items).2 stop) :
    ∃ start, u.Evaluates base start ∧
      Tiles u start.toInt (symbolicTail t base items).1 stop.toInt := by
  induction items generalizing base with
  | nil => exact ⟨stop, hstop, .nil _⟩
  | cons p rest ih =>
    obtain ⟨hsimple, hrest⟩ := List.forall_mem_cons.1 hsizes
    obtain ⟨hfirst, hnonneg⟩ := List.forall_mem_cons.1 hnonneg
    have hsum := simplify_add_of_simplified hbase hsimple
    obtain ⟨mid, hmid, htiles⟩ := ih (by rw [hsum, hsum]) hrest hnonneg hstop
    rw [hsum] at hmid
    obtain ⟨start, n, hstart, hn, hadd⟩ := hmid.of_add
    have hn_nonneg := hfirst n hn
    exact ⟨start, hstart, .cons ⟨start, n, hstart, hn, rfl, hadd⟩ (by omega) htiles⟩

end TensorLowering
