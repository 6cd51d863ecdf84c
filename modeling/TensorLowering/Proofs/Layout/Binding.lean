import Mathlib.Algebra.Group.Nat.Defs
import TensorLowering.Proofs.Layout.Safety
import TensorLowering.Proofs.Rule

/-!
# Symbolic layouts stay valid

A layout is made before all symbols are bound, and its symbolic offsets are read later, under a
larger table. What every size divides into, every offset divides into as well
(`LayoutParts.Build.dvd_start`), and a count that is not negative later gives a size that is not
negative later (`LayoutParts.Build.nonneg_of_counts`). So under every later table that gives the
counts and the total size a value, all regions have a place, aligned and large enough, and those
that were symbolic are apart from all others (`Graph.Reachable.layout_valid_later`).
-/

namespace TensorLowering

namespace LayoutParts.Build

variable {p : LayoutParts} {g : Graph} {plan : LivenessPlan} {alignment : UInt64} {l : Layout}
  {a b : Allocation} {x : Tensor} {t : SymbolTable} {start stop start' stop' : Int} {T : Int64}

/-- What divides all sizes divides all offsets. -/
theorem dvd_start {d : Int} (hb : p.Build g plan alignment l) (hnonneg : p.Nonneg t)
    (hT : t.Evaluates (p.tail g.symbols).2 T)
    (hd : ∀ s ∈ p.sized, ∀ n, t.Evaluates s.2 n → d ∣ n.toInt)
    (ha : a ∈ p.regions g.symbols) (hspan : a.Spans t start stop) : d ∣ start := by
  have hlength : ∀ b ∈ p.regions g.symbols, ∀ start stop, b.Spans t start stop →
      d ∣ stop - start := by
    rintro b hmem start stop ⟨offset, size, -, hsize, rfl, rfl⟩
    obtain ⟨s, hs, hof, -⟩ := hb.region_cases hmem
    rw [hof.size] at hsize
    have hlen : offset.toInt + size.toInt - offset.toInt = size.toInt := by omega
    rw [hlen]
    exact hd s hs size hsize
  simp only [regions, List.mem_append, or_assoc] at ha hlength
  have hweights := (hb.tiles_weights hnonneg.known t).2.dvd (Int.dvd_zero d)
    fun b hmem => hlength b (.inl hmem)
  have hdedicated := (hb.tiles_dedicated hnonneg.known t).2.dvd (Int.dvd_zero d)
    fun b hmem => hlength b (.inr (.inl hmem))
  have harena := hb.arena.multiple d fun q hq => by
    obtain ⟨⟨y, n⟩, hs, hsize⟩ := hb.parcels q hq
    rw [hsize]
    exact hd _ (mem_ofRole.1 (mem_resolvedSizes.1 hs)).1 n (SymbolTable.evaluates_value.2 rfl)
  have htail := (hb.tiles_tail hnonneg hT).dvd (Int.dvd_add hdedicated.1 harena.1)
    fun b hmem => hlength b (.inr (.inr (.inr hmem)))
  rcases ha with ha | ha | ha | ha
  · exact hweights.2 a ha start stop hspan
  · exact hdedicated.2 a ha start stop hspan
  · obtain ⟨⟨y, n⟩, -, live, q, hpack⟩ := Computation.exists_item_of_mem hb.packed ha
    rw [(hspan.unique (hpack.spans t)).1]
    exact Int.dvd_add hdedicated.1 (harena.2 q hpack.placed)
  · exact htail.2 a ha start stop hspan

/-! ## Sizes under a later table -/

/-- The size of a tensor whose count has a value later rounds that value. -/
theorem size_of_count {size : Extent} {n z : Int64} (ht : g.symbols.Extends t)
    (hsize : g.byteSize alignment x = .ok size) (hn : t.Evaluates x.shape.count n)
    (hz : t.Evaluates size z) : z.toInt = alignedBytes alignment.toInt64 n.toInt := by
  obtain ⟨m, hm, hz⟩ := Graph.evaluates_byteSize hsize hz
  rwa [(ht.evaluates_simplify hn).unique hm]

/-- A power of two as alignment divides all sizes. -/
theorem dvd_size (hb : p.Build g plan alignment l) (hpow : isPowerOfTwo alignment = true)
    (halign : alignment.toNat ≤ 2 ^ 62) {s : SizedTensor} (hs : s ∈ p.sized) {z : Int64}
    (hz : t.Evaluates s.2 z) : (alignment.toNat : Int) ∣ z.toInt := by
  have hword : alignment.toInt64.toInt = alignment.toNat := toInt_toInt64_of_lt (by omega)
  have hpos : 1 ≤ alignment.toInt64.toInt := by
    have hpos := Nat.pos_of_isPowerOfTwo (isPowerOfTwo_iff.1 hpow)
    omega
  obtain ⟨n, -, hz⟩ := Graph.evaluates_byteSize (hb.tensor_of_sized hs).2 hz
  rw [hz, ← hword]
  exact dvd_alignedBytes hpos _

/-- Counts that are not negative later give sizes that are not negative later. -/
theorem nonneg_of_counts (hb : p.Build g plan alignment l) (ht : g.symbols.Extends t)
    (hcount : ∀ x ∈ g.tensors, ∃ n, t.Evaluates x.shape.count n ∧ 0 ≤ n.toInt) : p.Nonneg t := by
  intro s hs z hz
  obtain ⟨hmem, hsize⟩ := hb.tensor_of_sized hs
  obtain ⟨n, hn, hpos⟩ := hcount s.1 hmem
  have hle := four_mul_le_alignedBytes alignment.toInt64 n.toInt
  rw [size_of_count ht hsize hn hz]
  omega

/-! ## Regions of symbolic size -/

/-- A region that was symbolic is apart from every other dynamic region. -/
theorem apart_of_unresolved (hb : p.Build g plan alignment l) (hg : g.Coherent)
    (hnonneg : p.Nonneg t) (hT : t.Evaluates (p.tail g.symbols).2 T) (ha : a ∈ l.unresolved)
    (hb' : b ∈ l.allocations) (hdynamic : b.space = .dynamic) (hne : a.tensor ≠ b.tensor)
    (hspan : a.Spans t start stop) (hspan' : b.Spans t start' stop') :
    stop ≤ start' ∨ stop' ≤ start := by
  obtain ⟨ha, hopen⟩ := List.mem_filter.1 ha
  have htail : a ∈ (p.tail g.symbols).1 :=
    (hb.isResolved_or_mem_tail (hb.region_of_mem hg ha).1).resolve_left (by simpa using hopen)
  have hmem := hb.mem_of_dynamic (hb.region_of_mem hg hb').1 hdynamic
  exact hb.apart_of_tail hnonneg hT htail hmem hne hspan hspan'

end LayoutParts.Build

namespace Graph

variable {g : Graph} {plan : LivenessPlan} {config : Config} {l : Layout} {t : SymbolTable}
  {T : Int64}

/-- Under every later table that gives all counts values which are not negative and the total size a
value, every region has an aligned place of sufficient size, the regions that were symbolic are
apart from all other dynamic regions, and all dynamic regions lie within the total size. -/
theorem Reachable.layout_valid_later (hg : g.Reachable) (h : g.allocate plan config = .ok l)
    (halign : config.alignment.toNat ≤ 2 ^ 62) (ht : g.symbols.Extends t)
    (hcount : ∀ x ∈ g.tensors, ∃ n, t.Evaluates x.shape.count n ∧ 0 ≤ n.toInt)
    (hT : t.Evaluates l.dynamicSize T) :
    List.Forall₂ (fun x a => a.tensor = x.id ∧ ∃ offset size n, t.Evaluates a.offset offset ∧
      t.Evaluates a.size size ∧ t.Evaluates x.shape.count n ∧
      (config.alignment.toNat : Int) ∣ offset.toInt ∧
      (config.alignment.toNat : Int) ∣ size.toInt ∧ 4 * n.toInt ≤ size.toInt)
      g.tensors l.allocations ∧
    (∀ a ∈ l.unresolved, ∀ b ∈ l.allocations, b.space = .dynamic → a.tensor ≠ b.tensor →
      ∀ start stop start' stop', a.Spans t start stop → b.Spans t start' stop' →
      stop ≤ start' ∨ stop' ≤ start) ∧
    ∀ a ∈ l.allocations, a.space = .dynamic →
      ∃ start stop, a.Spans t start stop ∧ 0 ≤ start ∧ start ≤ stop ∧ stop ≤ T.toInt := by
  obtain ⟨hpow, p, hb⟩ := allocate_eq_ok hg.coherent h
  have hnonneg := hb.nonneg_of_counts ht hcount
  have hT : t.Evaluates (p.tail g.symbols).2 T := by rwa [hb.layout] at hT
  have hmultiple : ∀ s ∈ p.sized, ∀ z, t.Evaluates s.2 z →
      (config.alignment.toNat : Int) ∣ z.toInt := by
    intro s hs z hz
    exact hb.dvd_size hpow halign hs hz
  refine ⟨?_, ?_, ?_⟩
  · refine ((List.forall₂_and_left _ _).2 ⟨hcount, hb.allocations hg.coherent⟩).imp ?_
    rintro x a ⟨⟨n, hn, -⟩, hmem, size, hsize, hof⟩
    obtain ⟨start, stop, hspan, -, -⟩ := hb.exists_spans hnonneg hT hmem
    have hstart := hb.dvd_start hnonneg hT hmultiple hmem hspan
    obtain ⟨offset, z, hoffset, hz, rfl, rfl⟩ := hspan
    refine ⟨hof.tensor, offset, z, n, hoffset, hz, hn, hstart, ?_, ?_⟩
    · obtain ⟨s, hs, hof, -⟩ := hb.region_cases hmem
      exact hmultiple s hs z (hof.size ▸ hz)
    · rw [hof.size] at hz
      rw [LayoutParts.Build.size_of_count ht hsize hn hz]
      exact four_mul_le_alignedBytes _ _
  · intro a ha b hmem hdynamic hne start stop start' stop' hspan hspan'
    exact hb.apart_of_unresolved hg.coherent hnonneg hT ha hmem hdynamic hne hspan hspan'
  · intro a hmem hdynamic
    have hmem := hb.mem_of_dynamic (hb.region_of_mem hg.coherent hmem).1 hdynamic
    exact hb.dynamic_within hnonneg hT hmem

/-- A graph that scales a batch of unknown size. -/
def batchScaling : Graph :=
  empty.replay [.addSymbol "N", .addTensor .input "x" .nc [.symbol 0, .value 4],
    .addTensor .weight "s" .c [.value 4], .addOperator none (.axiswiseScale .c), .apply 0 [0, 1],
    .markOutput 2]

/-- The size of the tensors of `batchScaling` that depend on the batch. -/
def batchBytes : Extent :=
  ((Extent.symbol 0 * .value 4) * .value 4).alignUp 16

/-- The layout of `batchScaling` under the standard settings. -/
def batchScalingLayout : Layout where
  allocations := [⟨0, "x", .dynamic, .value 0, batchBytes⟩,
    ⟨1, "s", .static, .value 0, .value 16⟩,
    ⟨2, "AxiswiseScale0_y", .dynamic, batchBytes, batchBytes⟩]
  staticSize := .value 16
  dynamicSize := batchBytes + batchBytes
  alignment := 16

/-- With a batch of three the two symbolic regions do not overlap, and lie within 96 bytes. -/
theorem layout_valid_later_batchScaling :
    batchScalingLayout.unresolved.length = 2 ∧
      (∀ a ∈ batchScalingLayout.unresolved, ∀ b ∈ batchScalingLayout.allocations,
        b.space = .dynamic → a.tensor ≠ b.tensor → ∀ start stop start' stop',
        a.Spans ⟨[⟨"N", some 3⟩]⟩ start stop → b.Spans ⟨[⟨"N", some 3⟩]⟩ start' stop' →
        stop ≤ start' ∨ stop' ≤ start) ∧
      ∀ a ∈ batchScalingLayout.allocations, a.space = .dynamic →
        ∃ start stop, a.Spans ⟨[⟨"N", some 3⟩]⟩ start stop ∧ 0 ≤ start ∧ start ≤ stop ∧
          stop ≤ (96 : Int64).toInt := by
  have hlayout : batchScaling.allocate ⟨[], 0, 0⟩ .standard = .ok batchScalingLayout := by
    decide +kernel
  refine ⟨by decide, (Reachable.layout_valid_later (g := batchScaling) (T := 96) ⟨_, rfl⟩ hlayout
    (by decide) ?_ ?_ ?_).2⟩
  · exact SymbolTable.extends_assign (t := batchScaling.symbols) (k := 0) (e := ⟨"N", none⟩) rfl rfl
  · have hcounts : batchScaling.tensors.map (·.shape.count) =
        [.symbol 0 * .value 4, .value 4, .symbol 0 * .value 4] := by decide
    intro x hx
    have hcount := List.mem_map_of_mem (f := (·.shape.count)) hx
    rw [hcounts] at hcount
    simp only [List.mem_cons, List.not_mem_nil, or_false] at hcount
    rcases hcount with hcount | hcount | hcount
    · exact ⟨12, hcount ▸ by decide, by decide⟩
    · exact ⟨4, hcount ▸ by decide, by decide⟩
    · exact ⟨12, hcount ▸ by decide, by decide⟩
  · decide

end Graph

end TensorLowering
