import Mathlib.Algebra.Ring.Int.Defs
import TensorLowering.Proofs.Layout.Sign
import TensorLowering.Proofs.Rule

/-!
# Alignment

Sizes are rounded up to the alignment (`roundsUp_alignedBytes`), and every known offset is a sum of
sizes, so what all sizes are multiples of, all known offsets are multiples of, whatever the signs of
the sizes (`LayoutParts.Build.dvd_offset`). An alignment is an unsigned word that the rounding reads
as a signed one. Below `2^63` both readings are the same number. The one power of two above has a
negative reading, and a negative alignment asks for nothing, so sizes are then left as they are
(`alignmentUnit`, `Graph.Reachable.layout_aligned`, `Graph.layout_unaligned_singleInput`).
-/

namespace TensorLowering

/-- What sizes are rounded up to: the alignment, if a signed word can hold it, else single bytes. -/
def alignmentUnit (alignment : UInt64) : Int :=
  if alignment.toNat < 2 ^ 63 then alignment.toNat else 1

/-- The size is the least multiple of the unit that is at least the number of bytes. -/
structure RoundsUp (unit bytes size : Int) : Prop where
  dvd : unit ∣ size
  le : bytes ≤ size
  least : ∀ m, unit ∣ m → bytes ≤ m → size ≤ m

/-- Every known offset and size is a multiple of the unit, and the size of a tensor whose count has
a value is known: it is the least multiple of the unit that holds the elements. -/
structure Layout.Aligned (l : Layout) (g : Graph) (unit : Int) : Prop where
  offset : ∀ a ∈ l.allocations, ∀ n, a.offset = .value n → unit ∣ n.toInt
  size : ∀ a ∈ l.allocations, ∀ n, a.size = .value n → unit ∣ n.toInt
  rounded : List.Forall₂ (fun x a => a.tensor = x.id ∧ ∀ n, g.symbols.Evaluates x.shape.count n →
    ∃ size, a.size = .value size ∧ RoundsUp unit (4 * n.toInt) size.toInt) g.tensors l.allocations

/-! ## Rounding -/

/-- A power of two is rounded to as the number that it is, as far as signed words go. -/
theorem alignmentUnit_eq {alignment : UInt64} (h : isPowerOfTwo alignment = true) :
    alignmentUnit alignment = max 1 alignment.toInt64.toInt := by
  have hpos := Nat.pos_of_isPowerOfTwo (isPowerOfTwo_iff.1 h)
  unfold alignmentUnit
  split
  · next hlt =>
    rw [toInt_toInt64_of_lt hlt]
    omega
  · next hge =>
    have hneg : ¬ 0 ≤ alignment.toInt64.toInt := by
      intro hnonneg
      have hread := toInt_toInt64 hnonneg
      have hlt := alignment.toInt64.toInt_lt
      omega
    omega

/-- Rounding up gives the least multiple that loses no bytes. -/
theorem roundsUp_alignedBytes (alignment : Int64) (count : Int) :
    RoundsUp (max 1 alignment.toInt) (4 * count) (alignedBytes alignment count) := by
  have hle := four_mul_le_alignedBytes alignment count
  unfold alignedBytes at hle ⊢
  split
  · next h =>
    have hone : max 1 alignment.toInt = 1 := by
      have hsmall := Int64.le_iff_toInt_le.1 h
      simp only [Int64.toInt_one] at hsmall
      omega
    rw [hone]
    exact ⟨Int.one_dvd _, Int.le_refl _, fun m _ hm => hm⟩
  · next h =>
    have hpos := one_lt_toInt h
    rw [if_neg h] at hle
    rw [Int.max_eq_right (Int.le_of_lt hpos)]
    refine ⟨Int.dvd_mul_left _ _, hle, ?_⟩
    intro m hdvd hm
    obtain ⟨k, rfl⟩ := hdvd
    have hdiv := Int.fdiv_mul_add_fmod (4 * count + (alignment.toInt - 1)) alignment.toInt
    have hmod := Int.fmod_nonneg_of_pos (4 * count + (alignment.toInt - 1))
      (show 0 < alignment.toInt by omega)
    generalize Int.fdiv _ _ = q at hdiv ⊢
    rw [Int.mul_comm alignment.toInt k] at hm ⊢
    -- A larger quotient would leave a whole unit too much.
    have hlt : q * alignment.toInt < (k + 1) * alignment.toInt := by
      rw [Int.add_mul, Int.one_mul]
      omega
    have hq : q < k + 1 := Int.lt_of_mul_lt_mul_right hlt (by omega)
    exact Int.mul_le_mul_of_nonneg_right (Int.le_of_lt_add_one hq) (by omega)

/-! ## Offsets -/

/-- A region with a literal offset begins there. -/
theorem Allocation.Spans.start_eq {a : Allocation} {t : SymbolTable} {start stop : Int} {n : Int64}
    (h : a.Spans t start stop) (hn : a.offset = .value n) : n.toInt = start := by
  obtain ⟨offset, size, hoffset, -, rfl, -⟩ := h
  rw [hn] at hoffset
  rw [SymbolTable.evaluates_value.1 hoffset]

/-- What divides the height of a stack, its known offsets and all sizes that are pushed divides the
height and the known offsets afterwards. -/
theorem Stack.dvd_of_pushAll {d : Int} {space : Space} {items : List (Tensor × Int64)}
    {s s' : Stack} (h : s.pushAll space items = .ok s') (hitems : ∀ p ∈ items, d ∣ p.2.toInt)
    (hfits : FitsWord s.height) (hheight : d ∣ s.height)
    (hoffsets : ∀ a ∈ s.placed, ∀ n, a.offset = .value n → d ∣ n.toInt) :
    d ∣ s'.height ∧ ∀ a ∈ s'.placed, ∀ n, a.offset = .value n → d ∣ n.toInt := by
  induction items generalizing s with
  | nil =>
    cases h
    exact ⟨hheight, hoffsets⟩
  | cons p rest ih =>
    obtain ⟨hfirst, hrest⟩ := List.forall_mem_cons.1 hitems
    obtain ⟨m, hm, h⟩ := Computation.foldlM_cons_eq_ok.1 h
    obtain ⟨hfits', hsum, a, hplaced, -, -, hspan⟩ := push_eq_ok hm
    refine ih h hrest hfits' ?_ ?_
    · rw [hsum]
      exact Int.dvd_add hheight hfirst
    · intro b hb n hn
      rw [hplaced] at hb
      rcases List.mem_append.1 hb with hb | hb
      · exact hoffsets b hb n hn
      · cases List.mem_singleton.1 hb
        rw [(hspan hfits .empty).start_eq hn]
        exact hheight

namespace LayoutParts.Build

variable {p : LayoutParts} {g : Graph} {plan : LivenessPlan} {alignment : UInt64} {l : Layout}
  {a : Allocation} {n : Int64} {d : Int}

/-- What divides all known sizes divides all known offsets, also where sizes are negative. -/
theorem dvd_offset (hb : p.Build g plan alignment l)
    (hd : ∀ s ∈ p.sized, ∀ n, s.2 = .value n → d ∣ n.toInt) (ha : a ∈ p.regions g.symbols)
    (hn : a.offset = .value n) : d ∣ n.toInt := by
  have hresolved : ∀ {role : Role}, ∀ s ∈ resolvedSizes (ofRole role p.sized), d ∣ s.2.toInt := by
    intro role s hs
    exact hd _ (mem_ofRole.1 (mem_resolvedSizes.1 hs)).1 _ rfl
  have hboundary : ∀ s ∈ resolvedSizes p.boundary, d ∣ s.2.toInt := by
    intro s hs
    rcases List.mem_append.1 (mem_resolvedSizes.1 hs) with hs | hs
    · exact hresolved s (mem_resolvedSizes.2 hs)
    · exact hresolved s (mem_resolvedSizes.2 hs)
  have hzero : FitsWord 0 := by decide
  have hweights := Stack.dvd_of_pushAll hb.weights hresolved hzero (Int.dvd_zero d) nofun
  have hdedicated := Stack.dvd_of_pushAll hb.dedicated hboundary hzero (Int.dvd_zero d) nofun
  have hpacked : ∀ q ∈ p.arena.placements, d ∣ q.parcel.size := by
    intro q hq
    obtain ⟨s, hs, hsize⟩ := hb.parcels q hq
    rw [hsize]
    exact hresolved s hs
  have harena := hb.arena.multiple d hpacked
  simp only [regions, List.mem_append, or_assoc] at ha
  rcases ha with ha | ha | ha | ha
  · exact hweights.2 a ha n hn
  · exact hdedicated.2 a ha n hn
  · obtain ⟨s, -, live, q, hpack⟩ := Computation.exists_item_of_mem hb.packed ha
    rw [(hpack.spans .empty).start_eq hn]
    exact Int.dvd_add hdedicated.1 (harena.2 q hpack.placed)
  · -- The one known offset in the tail is that of its beginning.
    have hbase := symbolicTail_offset (t := g.symbols) rfl hb.simplify_symbolic ha hn
    rw [hb.toInt_tailBase hbase]
    exact Int.dvd_add hdedicated.1 harena.1

/-- A layout is aligned to what its sizes are rounded up to. -/
theorem aligned (hb : p.Build g plan alignment l) (hg : g.Coherent)
    (hpow : isPowerOfTwo alignment = true) : l.Aligned g (alignmentUnit alignment) := by
  have hrounds : ∀ n : Int64, RoundsUp (alignmentUnit alignment) (4 * n.toInt)
      (alignedBytes alignment.toInt64 n.toInt) := by
    intro n
    rw [alignmentUnit_eq hpow]
    exact roundsUp_alignedBytes _ _
  have hsized : ∀ s ∈ p.sized, ∀ z, s.2 = .value z → alignmentUnit alignment ∣ z.toInt := by
    intro s hs z hz
    obtain ⟨n, -, heq⟩ := Graph.evaluates_byteSize (t := g.symbols) (hb.tensor_of_sized hs).2
      (hz ▸ SymbolTable.evaluates_value.2 rfl)
    rw [heq]
    exact (hrounds n).dvd
  refine ⟨?_, ?_, ?_⟩
  · intro a ha n hn
    exact hb.dvd_offset hsized (hb.region_of_mem hg ha).1 hn
  · intro a ha n hn
    obtain ⟨s, hs, hof, -⟩ := hb.region_cases (hb.region_of_mem hg ha).1
    exact hsized s hs n (hof.size.symm.trans hn)
  · refine (hb.allocations hg).imp ?_
    intro x a hregion
    obtain ⟨-, size, hsize, hof⟩ := hregion
    refine ⟨hof.tensor, ?_⟩
    intro n hn
    obtain ⟨z, rfl, hz⟩ := Graph.byteSize_of_simplify hsize hn.simplify_eq
    refine ⟨z, hof.size, ?_⟩
    rw [hz]
    exact hrounds n

end LayoutParts.Build

/-- A layout that is aligned to single bytes is not aligned to `2^63` bytes if a tensor has
elements. -/
theorem Layout.Aligned.not_aligned {l : Layout} {g : Graph} (h : l.Aligned g 1) {x : Tensor}
    (hx : x ∈ g.tensors) {n : Int64} (hn : g.symbols.Evaluates x.shape.count n)
    (hpos : 0 < n.toInt) : ¬ l.Aligned g (2 ^ 63) := by
  intro hlarge
  obtain ⟨a, ha, -, hrounded⟩ := Computation.exists_result_of_mem h.rounded hx
  obtain ⟨size, hsize, hround⟩ := hrounded n hn
  have hle := hround.le
  have hdvd := hlarge.size a ha size hsize
  have hmin := Int.le_of_dvd (by omega) hdvd
  have hmax := size.toInt_lt
  omega

namespace Graph

variable {g : Graph} {plan : LivenessPlan} {config : Config} {l : Layout}

/-- Whatever the plan, the layout of a reachable graph is aligned to its alignment when a signed
word can hold it. With the one power of two that is larger, sizes are not rounded: the layout is
aligned to single bytes, and not to its alignment as soon as a tensor has elements. -/
theorem Reachable.layout_aligned (hg : g.Reachable) (h : g.allocate plan config = .ok l) :
    l.Aligned g (alignmentUnit config.alignment) ∧
      (config.alignment.toNat < 2 ^ 63 → l.Aligned g config.alignment.toNat) ∧
      (config.alignment.toNat = 2 ^ 63 → ∀ x ∈ g.tensors, ∀ n,
        g.symbols.Evaluates x.shape.count n → 0 < n.toInt →
        ¬ l.Aligned g config.alignment.toNat) := by
  obtain ⟨hpow, p, hb⟩ := allocate_eq_ok hg.coherent h
  have haligned := hb.aligned hg.coherent hpow
  refine ⟨haligned, ?_, ?_⟩
  · intro hlt
    rwa [alignmentUnit, if_pos hlt] at haligned
  · intro heq x hx n hn hpos
    rw [alignmentUnit, if_neg (by omega)] at haligned
    rw [heq]
    exact haligned.not_aligned hx hn hpos

/-- A graph that scales a batch of two vectors twice. -/
def twoScalings : Graph :=
  empty.replay [.addTensor .input "x" .nc [.value 2, .value 4],
    .addTensor .weight "s" .c [.value 4], .addOperator none (.axiswiseScale .c), .apply 0 [0, 1],
    .addOperator none (.axiswiseScale .c), .apply 1 [2, 1], .markOutput 3]

/-- The layout of `twoScalings` with an alignment of 64 bytes. -/
def twoScalingsWide : Layout where
  allocations := [⟨0, "x", .dynamic, .value 0, .value 64⟩, ⟨1, "s", .static, .value 0, .value 64⟩,
    ⟨2, "AxiswiseScale0_y", .dynamic, .value 128, .value 64⟩,
    ⟨3, "AxiswiseScale1_y", .dynamic, .value 64, .value 64⟩]
  staticSize := .value 64
  dynamicSize := .value 192
  alignment := 64

theorem layout_aligned_twoScalings :
    twoScalings.allocate ((Schedule.mk [0, 1]).liveness twoScalings) { Config.standard with
      alignment := 64 } = .ok twoScalingsWide ∧ twoScalingsWide.Aligned twoScalings 64 := by
  have hlayout : twoScalings.allocate ((Schedule.mk [0, 1]).liveness twoScalings)
      { Config.standard with alignment := 64 } = .ok twoScalingsWide := by decide +kernel
  exact ⟨hlayout, (Reachable.layout_aligned (g := twoScalings) ⟨_, rfl⟩ hlayout).2.1 (by decide)⟩

/-- A graph with one input of four elements. -/
def singleInput : Graph := empty.replay [.addTensor .input "x" .c [.value 4]]

/-- The layout of `singleInput` without rounding. -/
def singleInputLayout : Layout where
  allocations := [⟨0, "x", .dynamic, .value 0, .value 16⟩]
  staticSize := .value 0
  dynamicSize := .value 16
  alignment := 9223372036854775808

/-- An alignment of `2^63` bytes is accepted, and the input gets 16 bytes. -/
theorem layout_unaligned_singleInput :
    singleInput.Reachable ∧
      singleInput.allocate ⟨[], 0, 0⟩ { Config.standard with alignment := 9223372036854775808 } =
        .ok singleInputLayout ∧
      ¬ singleInputLayout.Aligned singleInput (2 ^ 63) := by
  refine ⟨⟨_, rfl⟩, by decide +kernel, ?_⟩
  intro h
  have hsize := h.size _ List.mem_cons_self 16 rfl
  exact absurd hsize (by decide)

end Graph

end TensorLowering
