import TensorLowering.Proofs.Layout.Safety

/-!
# Negative sizes

A count that has a value must not be negative when a layout is made. While a symbol is unbound a
count has no value, but its simplification can be a literal all the same, because a factor of zero
absorbs the symbol; and sizes are made of simplified counts. Offsets and totals are sums of sizes,
so nothing that is known of a layout is negative unless a size is (`LayoutParts.Build.nonneg`), and
a size is negative just when such a simplified count is, rounded up to the alignment
(`Graph.Reachable.layout_nonneg_iff`, `Graph.layout_negative_belowZero`).
-/

namespace TensorLowering

/-- No size, offset or total that is known is negative. -/
structure Layout.Nonneg (l : Layout) : Prop where
  size : ∀ a ∈ l.allocations, ∀ n, a.size = .value n → 0 ≤ n.toInt
  offset : ∀ a ∈ l.allocations, ∀ n, a.offset = .value n → 0 ≤ n.toInt
  static_total : ∃ n, l.staticSize = .value n ∧ 0 ≤ n.toInt
  dynamic_total : ∀ n, l.dynamicSize = .value n → 0 ≤ n.toInt

namespace LayoutParts.Build

variable {p : LayoutParts} {g : Graph} {plan : LivenessPlan} {alignment : UInt64} {l : Layout}
  {a : Allocation} {n : Int64}

/-- Where the dynamic regions of known size end is not negative. -/
theorem resolvedEnd_nonneg (hb : p.Build g plan alignment l) (hnonneg : p.NonnegKnown) :
    0 ≤ p.resolvedEnd := by
  have hheight := (hb.tiles_dedicated hnonneg g.symbols).2.le
  have harena := hb.arena.size_nonneg
  unfold resolvedEnd
  omega

/-- The sizes in the tail are simplified and symbolic. -/
theorem simplify_symbolic (hb : p.Build g plan alignment l) :
    ∀ s ∈ p.symbolic, g.symbols.simplify s.2 = s.2 ∧ s.2.asValue = none := by
  intro s hs
  obtain ⟨hmem, -, hnone⟩ := mem_symbolic.1 hs
  exact ⟨Graph.simplify_byteSize (hb.tensor_of_sized hmem).2, hnone⟩

/-- A literal at the beginning of the tail is where the regions of known size end. -/
theorem toInt_tailBase (hb : p.Build g plan alignment l)
    (hn : Extent.value (.ofInt p.resolvedEnd) = .value n) : n.toInt = p.resolvedEnd := by
  rw [← Extent.value.inj hn]
  exact hb.fits.toInt_ofInt

/-- A known offset is not negative, if no known size is. -/
theorem offset_nonneg (hb : p.Build g plan alignment l) (hnonneg : p.NonnegKnown)
    (ha : a ∈ p.regions g.symbols) (hn : a.offset = .value n) : 0 ≤ n.toInt := by
  have hspanned : ∀ {start stop : Int}, a.Spans g.symbols start stop → 0 ≤ start →
      0 ≤ n.toInt := by
    rintro start stop ⟨offset, size, hoffset, -, rfl, -⟩ hstart
    rw [hn] at hoffset
    rwa [SymbolTable.evaluates_value.1 hoffset]
  rcases hb.space_cases ha with ⟨-, ha⟩ | ⟨-, ha | ha | ha⟩
  · obtain ⟨start, stop, hspan, hlow, -⟩ := (hb.tiles_weights hnonneg g.symbols).2.within ha
    exact hspanned hspan hlow
  · obtain ⟨start, stop, hspan, hlow, -⟩ := hb.known_within hnonneg (.inl ha) g.symbols
    exact hspanned hspan hlow
  · obtain ⟨start, stop, hspan, hlow, -⟩ := hb.known_within hnonneg (.inr ha) g.symbols
    exact hspanned hspan hlow
  · -- The one known offset in the tail is that of its beginning.
    have hbase := symbolicTail_offset (t := g.symbols) rfl hb.simplify_symbolic ha hn
    rw [hb.toInt_tailBase hbase]
    exact hb.resolvedEnd_nonneg hnonneg

/-- Nothing that is known of a layout is negative, if no known size is. -/
theorem nonneg (hb : p.Build g plan alignment l) (hg : g.Coherent) (hnonneg : p.NonnegKnown) :
    l.Nonneg := by
  refine ⟨?_, ?_, ?_, ?_⟩
  · intro a ha n hn
    obtain ⟨x, hx, -, size, hsize, hof⟩ := Computation.exists_item_of_mem (hb.allocations hg) ha
    obtain ⟨s, hs, rfl, hsize'⟩ := Computation.exists_result_of_mem hb.sized hx
    cases hsize.symm.trans hsize'
    exact hnonneg s hs n (hof.size.symm.trans hn)
  · intro a ha n hn
    exact hb.offset_nonneg hnonneg (hb.region_of_mem hg ha).1 hn
  · obtain ⟨hfits, htiles⟩ := hb.tiles_weights hnonneg g.symbols
    refine ⟨.ofInt p.weights.height, by rw [hb.layout], ?_⟩
    rw [hfits.toInt_ofInt]
    exact htiles.le
  · intro n hn
    rw [hb.layout] at hn
    obtain ⟨-, hbase⟩ := symbolicTail_asValue (t := g.symbols) rfl hb.simplify_symbolic
      (Extent.asValue_eq_some_iff.2 hn)
    rw [hb.toInt_tailBase hbase]
    exact hb.resolvedEnd_nonneg hnonneg

end LayoutParts.Build

namespace Graph

variable {g : Graph} {alignment : UInt64} {x : Tensor} {size : Extent} {plan : LivenessPlan}
  {config : Config} {l : Layout} {z : Int64}

/-- A known size is not negative if the count has a value, and else is the rounded size of a literal
that the count simplifies to. -/
theorem byteSize_cases (h : g.byteSize alignment x = .ok (.value z)) :
    0 ≤ z.toInt ∨ g.symbols.evaluate x.shape.count = .ok none ∧
      ∃ n, g.symbols.simplify x.shape.count = .value n ∧
        z.toInt = alignedBytes alignment.toInt64 n.toInt := by
  obtain ⟨n, hn, hz⟩ := evaluates_byteSize (t := g.symbols) h (SymbolTable.evaluates_value.2 rfl)
  have hsimplify : g.symbols.simplify x.shape.count = .value n := by
    rw [← (SymbolTable.Extends.refl _).simplify_simplify x.shape.count]
    exact hn.simplify_eq
  obtain ⟨⟨count?, hcount, hnonneg⟩, -⟩ := byteSize_stages h
  cases count? with
  | none => exact .inr ⟨hcount, n, hsimplify, hz⟩
  | some m =>
    have hm : g.symbols.Evaluates x.shape.count m := hcount
    cases hm.simplify_eq.symm.trans hsimplify
    have hpos : 0 ≤ n.toInt := Int64.le_iff_toInt_le.1 (hnonneg n rfl)
    have hle := four_mul_le_alignedBytes alignment.toInt64 n.toInt
    exact .inl (by omega)

/-- Nothing that is known of the layout of a reachable graph is negative, whatever the plan, except
through a count that has no value yet and simplifies to a negative literal, so negative that
rounding up does not make up for it. A count that has a value is never negative. -/
theorem Reachable.layout_nonneg_iff (hg : g.Reachable) (h : g.allocate plan config = .ok l) :
    (l.Nonneg ↔ ∀ x ∈ g.tensors, g.symbols.evaluate x.shape.count = .ok none →
      ∀ n, g.symbols.simplify x.shape.count = .value n →
        0 ≤ alignedBytes config.alignment.toInt64 n.toInt) ∧
    ∀ x ∈ g.tensors, ∀ n, g.symbols.Evaluates x.shape.count n → 0 ≤ n.toInt := by
  obtain ⟨-, p, hb⟩ := allocate_eq_ok hg.coherent h
  refine ⟨⟨fun hl x hx _ n hn => ?_, fun hcounts => ?_⟩, fun x hx n hn => ?_⟩
  · obtain ⟨a, ha, -, size, hsize, hof⟩ :=
      Computation.exists_result_of_mem (hb.allocations hg.coherent) hx
    obtain ⟨z, rfl, hz⟩ := byteSize_of_simplify hsize hn
    rw [← hz]
    exact hl.size a ha z hof.size
  · refine hb.nonneg hg.coherent fun s hs z hz => ?_
    obtain ⟨hmem, hsize⟩ := hb.tensor_of_sized hs
    rw [hz] at hsize
    rcases byteSize_cases hsize with hpos | ⟨hopen, n, hn, heq⟩
    · exact hpos
    · rw [heq]
      exact hcounts s.1 hmem hopen n hn
  · obtain ⟨s, hs, rfl, hsize⟩ := Computation.exists_result_of_mem hb.sized hx
    exact Int64.le_iff_toInt_le.1 ((byteSize_eq_ok hsize).2 n hn)

/-- A tensor whose count is the product of two symbols, one of them bound to zero and one unbound,
less a literal; and a tensor of known size. -/
def belowZero (less : Int64) : Graph :=
  empty.replay [.addSymbol "A", .addSymbol "B",
    .addTensor .input "x" .c [.symbol 0 * .symbol 1 - .value less],
    .addTensor .input "z" .c [.value 4], .bind 0 0]

/-- The layout of `belowZero`, when the first tensor has a size in bytes. -/
def belowZeroLayout (size total : Int64) : Layout where
  allocations := [⟨0, "x", .dynamic, .value 0, .value size⟩,
    ⟨1, "z", .dynamic, .value size, .value 16⟩]
  staticSize := .value 0
  dynamicSize := .value total
  alignment := 16

/-- Nothing is subtracted from the absorbed product, so nothing is negative. -/
theorem layout_nonneg_iff_belowZero :
    (belowZero 0).allocate ⟨[], 0, 0⟩ .standard = .ok (belowZeroLayout 0 16) ∧
      (belowZeroLayout 0 16).Nonneg := by
  have hlayout : (belowZero 0).allocate ⟨[], 0, 0⟩ .standard = .ok (belowZeroLayout 0 16) := by
    decide +kernel
  have hliterals : (belowZero 0).tensors.map
      (fun x => (belowZero 0).symbols.simplify x.shape.count) = [.value 0, .value 4] := by
    decide +kernel
  refine ⟨hlayout, (Reachable.layout_nonneg_iff (g := belowZero 0) ⟨_, rfl⟩ hlayout).1.2 ?_⟩
  intro x hx _ n hn
  have hmem := List.mem_map_of_mem (f := fun x => (belowZero 0).symbols.simplify x.shape.count) hx
  rw [hliterals] at hmem
  simp only [hn, List.mem_cons, Extent.value.injEq, List.not_mem_nil, or_false] at hmem
  rcases hmem with rfl | rfl
  · decide
  · decide

/-- With five subtracted, the region of the first tensor has a negative size, and the second tensor
a negative offset. -/
theorem layout_negative_belowZero :
    (belowZero 5).Reachable ∧
      (belowZero 5).allocate ⟨[], 0, 0⟩ .standard = .ok (belowZeroLayout (-16) 0) ∧
      ¬ (belowZeroLayout (-16) 0).Nonneg := by
  refine ⟨⟨_, rfl⟩, by decide +kernel, fun h => ?_⟩
  have hsize := h.size _ List.mem_cons_self _ rfl
  exact absurd hsize (by decide)

end Graph

end TensorLowering
