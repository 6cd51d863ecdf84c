import TensorLowering.Layout.Check
import TensorLowering.Proofs.Layout.Separation
import TensorLowering.Proofs.Schedule.Liveness

/-!
# Layouts are safe

`Layout.Safe` collects what a layout of known places promises: every tensor has one region, in the
space of its role; two regions in one space are apart, one ending before the other begins, unless
both tensors are intermediate and never live together; and every region lies within its space. A
layout of a reachable graph is safe for whatever plan it was made with, unless a known size is
negative (`Graph.Reachable.layout_safe`), and the check of a finished layout accepts one that is
safe for the plan it makes anew (`Layout.Safe.checkLayout`).
-/

namespace TensorLowering

/-- Every tensor has one region in the right space, only intermediate tensors that are never live
together can have bytes in common, and the regions of known place lie within their spaces. -/
structure Layout.Safe (l : Layout) (g : Graph) (plan : LivenessPlan) : Prop where
  nodup : (l.allocations.map (·.tensor)).Nodup
  regions : List.Forall₂ (fun x a => a.tensor = x.id ∧ a.space = x.role.space)
    g.tensors l.allocations
  apart : ∀ x ∈ g.tensors, ∀ y ∈ g.tensors, x ≠ y → ∀ a b : Allocation,
    l.get x.id = .ok a → l.get y.id = .ok b → a.space = b.space →
    ∀ r s : Int × Int, a.byteRange? = some r → b.byteRange? = some s →
    r.2 ≤ s.1 ∨ s.2 ≤ r.1 ∨
      x.role = .intermediate ∧ y.role = .intermediate ∧ plan.NeverTogether x.id y.id
  static_within : ∃ n, l.staticSize = .value n ∧ ∀ a ∈ l.allocations, a.space = .static →
    ∀ r, a.byteRange? = some r → 0 ≤ r.1 ∧ r.2 ≤ n.toInt
  dynamic_within : ∀ n, l.dynamicSize = .value n → ∀ a ∈ l.allocations, a.space = .dynamic →
    ∀ r, a.byteRange? = some r → 0 ≤ r.1 ∧ r.2 ≤ n.toInt

/-! ## Looking up regions -/

namespace LayoutParts.Build

variable {p : LayoutParts} {g : Graph} {plan : LivenessPlan} {alignment : UInt64} {l : Layout}
  {a b : Allocation} {x y : Tensor}

/-- No tensor has two regions. -/
theorem nodup_allocations (hb : p.Build g plan alignment l) (hg : g.Coherent) :
    (l.allocations.map (·.tensor)).Nodup := by
  rw [← Computation.map_eq_map (hb.allocations hg) (f := Tensor.id)]
  · exact hg.nodup_ids
  · rintro x a ⟨-, size, -, hof⟩
    exact hof.tensor.symm

/-- Every tensor has a region, of its size and in the space of its role. -/
theorem exists_get (hb : p.Build g plan alignment l) (hg : g.Coherent) (hx : x ∈ g.tensors) :
    ∃ a ∈ p.regions g.symbols, l.get x.id = .ok a ∧
      ∃ size, g.byteSize alignment x = .ok size ∧ a.IsOf x.role.space x size := by
  obtain ⟨a, ha, hmem, size, hsize, hof⟩ :=
    Computation.exists_result_of_mem (hb.allocations hg) hx
  refine ⟨a, hmem, ?_, size, hsize, hof⟩
  rw [Layout.get, ← hof.tensor, Computation.find?_key (hb.nodup_allocations hg) ha]

/-- A region of a layout belongs to a tensor, whose region is looked up. -/
theorem region_of_mem (hb : p.Build g plan alignment l) (hg : g.Coherent)
    (ha : a ∈ l.allocations) : a ∈ p.regions g.symbols ∧
      ∃ x ∈ g.tensors, l.get x.id = .ok a ∧ a.tensor = x.id := by
  obtain ⟨x, hx, hmem, size, -, hof⟩ := Computation.exists_item_of_mem (hb.allocations hg) ha
  refine ⟨hmem, x, hx, ?_, hof.tensor⟩
  rw [Layout.get, ← hof.tensor, Computation.find?_key (hb.nodup_allocations hg) ha]

/-- A packed region belongs to an intermediate tensor. -/
theorem role_of_packed (hb : p.Build g plan alignment l) (hg : g.Coherent) (ha : a ∈ p.packed)
    (hx : x ∈ g.tensors) (hid : a.tensor = x.id) : x.role = .intermediate := by
  obtain ⟨⟨y, n⟩, hs, live, placement, hpack⟩ := Computation.exists_item_of_mem hb.packed ha
  obtain ⟨hs, hrole⟩ := mem_ofRole.1 (mem_resolvedSizes.1 hs)
  cases hg.eq_of_id hx (hb.tensor_of_sized hs).1 (hid.symm.trans hpack.region.tensor)
  exact hrole

/-- If no known size of a layout is negative, no known size of its parts is. -/
theorem nonnegKnown (hb : p.Build g plan alignment l) (hg : g.Coherent)
    (hnonneg : ∀ a ∈ l.allocations, ∀ n, a.size = .value n → 0 ≤ n.toInt) : p.NonnegKnown := by
  intro s hs n hn
  obtain ⟨hmem, hsize⟩ := hb.tensor_of_sized hs
  obtain ⟨a, ha, -, size, hsize', hof⟩ :=
    Computation.exists_result_of_mem (hb.allocations hg) hmem
  cases hsize.symm.trans hsize'
  exact hnonneg a ha n (hof.size.trans hn)

/-- Two regions of known place in one space are apart, unless both tensors are intermediate and
never live together. -/
theorem apart_of_byteRange? (hb : p.Build g plan alignment l) (hg : g.Coherent)
    (hnonneg : p.NonnegKnown) (hx : x ∈ g.tensors) (hy : y ∈ g.tensors) (hne : x ≠ y)
    (ha : l.get x.id = .ok a) (hb' : l.get y.id = .ok b) (hspace : a.space = b.space)
    {r s : Int × Int} (hr : a.byteRange? = some r) (hs : b.byteRange? = some s) :
    r.2 ≤ s.1 ∨ s.2 ≤ r.1 ∨
      x.role = .intermediate ∧ y.role = .intermediate ∧ plan.NeverTogether x.id y.id := by
  obtain ⟨a', hmem, ha', _, -, hof⟩ := hb.exists_get hg hx
  cases ha'.symm.trans ha
  obtain ⟨b', hmem', hb'', _, -, hof'⟩ := hb.exists_get hg hy
  cases hb''.symm.trans hb'
  have hids : a.tensor ≠ b.tensor := by
    rw [hof.tensor, hof'.tensor]
    exact fun hid => hne (hg.eq_of_id hx hy hid)
  have htail : a ∈ (p.tail g.symbols).1 ∨ b ∈ (p.tail g.symbols).1 →
      p.Nonneg g.symbols ∧ ∃ T, g.symbols.Evaluates (p.tail g.symbols).2 T :=
    fun h => (h.elim (p.not_mem_tail hr _) (p.not_mem_tail hs _)).elim
  have hspan := Allocation.spans_of_byteRange? g.symbols hr
  have hspan' := Allocation.spans_of_byteRange? g.symbols hs
  rcases hb.apart hnonneg htail hmem hmem' hspace hids hspan hspan' with
    h | h | ⟨hpa, hpb, hplan⟩
  · exact .inl h
  · exact .inr (.inl h)
  · rw [hof.tensor, hof'.tensor] at hplan
    exact .inr (.inr ⟨hb.role_of_packed hg hpa hx hof.tensor,
      hb.role_of_packed hg hpb hy hof'.tensor, hplan⟩)

/-- A static region of known place lies within the static stack. -/
theorem static_within_byteRange? (hb : p.Build g plan alignment l) (hnonneg : p.NonnegKnown)
    (ha : a ∈ p.regions g.symbols) (hstatic : a.space = .static) {r : Int × Int}
    (hr : a.byteRange? = some r) :
    0 ≤ r.1 ∧ r.2 ≤ (Int64.ofInt p.weights.height).toInt := by
  obtain ⟨hfits, htiles⟩ := hb.tiles_weights hnonneg g.symbols
  obtain ⟨_, _, hwithin, hlow, -, hhigh⟩ := htiles.within (hb.mem_weights_of_static ha hstatic)
  obtain ⟨hstart, hstop⟩ := (Allocation.spans_of_byteRange? g.symbols hr).unique hwithin
  rw [hfits.toInt_ofInt]
  exact ⟨hstart ▸ hlow, hstop ▸ hhigh⟩

/-- A dynamic region of known place lies below the end of the tail, if that is known too. -/
theorem dynamic_within_byteRange? (hb : p.Build g plan alignment l) (hnonneg : p.NonnegKnown)
    {n : Int64} (hn : (p.tail g.symbols).2 = .value n) (ha : a ∈ p.regions g.symbols)
    (hdynamic : a.space = .dynamic) {r : Int × Int} (hr : a.byteRange? = some r) :
    0 ≤ r.1 ∧ r.2 ≤ n.toInt := by
  -- A literal end means that there is no tail, so the end is where the arena ends.
  obtain ⟨-, hend⟩ := symbolicTail_asValue (t := g.symbols) rfl
    (fun s hs => ⟨Graph.simplify_byteSize (hb.tensor_of_sized (mem_symbolic.1 hs).1).2,
      (mem_symbolic.1 hs).2.2⟩) (Extent.asValue_eq_some_iff.2 hn)
  have hint : n.toInt = p.resolvedEnd := by
    rw [← Extent.value.inj hend]
    exact hb.fits.toInt_ofInt
  have hknown : a ∈ p.dedicated.placed ∨ a ∈ p.packed :=
    (hb.mem_of_dynamic ha hdynamic).imp_right fun h => h.resolve_right (p.not_mem_tail hr _)
  obtain ⟨_, _, hwithin, hlow, -, hhigh⟩ := hb.known_within hnonneg hknown g.symbols
  obtain ⟨hstart, hstop⟩ := (Allocation.spans_of_byteRange? g.symbols hr).unique hwithin
  rw [hint]
  exact ⟨hstart ▸ hlow, hstop ▸ hhigh⟩

/-- A layout is safe for the plan that it was made with. -/
theorem safe (hb : p.Build g plan alignment l) (hg : g.Coherent) (hnonneg : p.NonnegKnown) :
    l.Safe g plan := by
  have hlayout := hb.layout
  refine ⟨hb.nodup_allocations hg, ?_, ?_, ?_, ?_⟩
  · refine (hb.allocations hg).imp ?_
    rintro x a ⟨-, size, -, hof⟩
    exact ⟨hof.tensor, hof.space⟩
  · intro x hx y hy hne a b ha hb' hspace r s hr hs
    exact hb.apart_of_byteRange? hg hnonneg hx hy hne ha hb' hspace hr hs
  · refine ⟨.ofInt p.weights.height, by rw [hlayout], ?_⟩
    intro a ha hstatic r hr
    exact hb.static_within_byteRange? hnonneg (hb.region_of_mem hg ha).1 hstatic hr
  · intro n hn a ha hdynamic r hr
    rw [hlayout] at hn
    exact hb.dynamic_within_byteRange? hnonneg hn (hb.region_of_mem hg ha).1 hdynamic hr

end LayoutParts.Build

/-! ## The check of a finished layout -/

theorem PlacedRegion.checkPairs_eq_ok {plan : LivenessPlan} {placed : List PlacedRegion} :
    checkPairs plan placed = .ok () ↔ placed.Pairwise fun a b => a.checkPair plan b = .ok () := by
  induction placed with
  | nil => simp [checkPairs, pure, Except.pure]
  | cons a rest ih =>
    simp only [checkPairs, Computation.bind_eq_ok, ih, List.pairwise_cons]
    constructor
    · rintro ⟨_, ha, hrest⟩
      exact ⟨Computation.forM_eq_ok.1 ha, hrest⟩
    · rintro ⟨ha, hrest⟩
      exact ⟨(), Computation.forM_eq_ok.2 ha, hrest⟩

/-- Two regions of a safe layout pass the check of pairs. -/
theorem Layout.Safe.checkPair {l : Layout} {g : Graph} {s : Schedule}
    (hsafe : l.Safe g (s.liveness g)) (hg : g.Coherent) {x y : Tensor} (hx : x ∈ g.tensors)
    (hy : y ∈ g.tensors) {a b : Allocation} {start stop start' stop' : Int}
    (hget : l.get x.id = .ok a) (hget' : l.get y.id = .ok b) (hax : a.tensor = x.id)
    (hby : b.tensor = y.id) (hne : x ≠ y) (hr : a.byteRange? = some (start, stop))
    (hr' : b.byteRange? = some (start', stop')) :
    PlacedRegion.checkPair (s.liveness g) ⟨a, start, stop⟩ ⟨b, start', stop'⟩ = .ok () := by
  unfold PlacedRegion.checkPair
  split
  · next h =>
    simp only [Bool.and_eq_true, PlacedRegion.meets, beq_iff_eq, decide_eq_true_eq] at h
    obtain ⟨⟨⟨hspace, hlow⟩, hhigh⟩, hshare⟩ := h
    rcases hsafe.apart x hx y hy hne a b hget hget' hspace _ _ hr hr' with
      h | h | ⟨hrole, hrole', r, r', hrange, hrange', hnever⟩
    · dsimp only at h
      omega
    · dsimp only at h
      omega
    · rw [hax, hby, PlacedRegion.mayShare, hrange, hrange'] at hshare
      rw [hg.range?_liveness s hx] at hrange
      rw [hg.range?_liveness s hy] at hrange'
      cases hrange
      cases hrange'
      have hr : (s.liveRange x).role = .intermediate := hrole
      have hr' : (s.liveRange y).role = .intermediate := hrole'
      simp [hr, hr', hnever] at hshare
  · rfl

/-- The check accepts a layout that is safe for the plan which the check makes anew. -/
theorem Layout.Safe.checkLayout {l : Layout} {g : Graph} {s : Schedule}
    (hsafe : l.Safe g (s.liveness g)) (hg : g.Coherent) (hs : g.schedule = .ok s) :
    g.checkLayout l = .ok () := by
  have hget : ∀ {x : Tensor} {a : Allocation}, x ∈ g.tensors → a ∈ l.allocations →
      a.tensor = x.id → l.get x.id = .ok a := by
    intro x a hx ha hid
    rw [Layout.get, ← hid, Computation.find?_key hsafe.nodup ha]
  have hpairs : (PlacedRegion.ofAllocations l.allocations).Pairwise fun a b =>
      a.checkPair (s.liveness g) b = .ok () := by
    refine List.pairwise_filterMap.2 ((List.pairwise_map.1 hsafe.nodup).imp_of_mem ?_)
    intro a b ha hb hne a' ha' b' hb'
    obtain ⟨⟨start, stop⟩, hr, rfl⟩ := Option.map_eq_some_iff.1 ha'
    obtain ⟨⟨start', stop'⟩, hr', rfl⟩ := Option.map_eq_some_iff.1 hb'
    obtain ⟨x, hx, hax, -⟩ := Computation.exists_item_of_mem hsafe.regions ha
    obtain ⟨y, hy, hby, -⟩ := Computation.exists_item_of_mem hsafe.regions hb
    refine hsafe.checkPair hg hx hy (hget hx ha hax) (hget hy hb hby) hax hby ?_ hr hr'
    rintro rfl
    exact hne (hax.trans hby.symm)
  simp only [Graph.checkLayout, hs, Computation.ok_bind, Computation.bind_eq_ok]
  refine ⟨(), Computation.forM_eq_ok.2 fun x hx => ?_, PlacedRegion.checkPairs_eq_ok.2 hpairs⟩
  obtain ⟨a, ha, hid, -⟩ := Computation.exists_result_of_mem hsafe.regions hx
  rw [hget hx ha hid]
  rfl

/-! ## Reachable graphs -/

namespace Graph

variable {g : Graph} {plan : LivenessPlan} {config : Config} {l : Layout}

/-- A layout of a reachable graph without negative sizes is safe, whatever plan it was made with,
and the check accepts it if it was made with the plan of the schedule. -/
theorem Reachable.layout_safe (hg : g.Reachable) (h : g.allocate plan config = .ok l)
    (hnonneg : ∀ a ∈ l.allocations, ∀ n, a.size = .value n → 0 ≤ n.toInt) :
    l.Safe g plan ∧
      ∀ s, g.schedule = .ok s → plan = s.liveness g → g.checkLayout l = .ok () := by
  obtain ⟨-, p, hb⟩ := allocate_eq_ok hg.coherent h
  have hsafe := hb.safe hg.coherent (hb.nonnegKnown hg.coherent hnonneg)
  refine ⟨hsafe, ?_⟩
  rintro s hs rfl
  exact hsafe.checkLayout hg.coherent hs

/-- A graph that scales a batch of two vectors four times. -/
def fourScalings : Graph :=
  empty.replay [.addTensor .input "x" .nc [.value 2, .value 4],
    .addTensor .weight "s" .c [.value 4], .addOperator none (.axiswiseScale .c), .apply 0 [0, 1],
    .addOperator none (.axiswiseScale .c), .apply 1 [2, 1],
    .addOperator none (.axiswiseScale .c), .apply 2 [3, 1],
    .addOperator none (.axiswiseScale .c), .apply 3 [4, 1], .markOutput 5]

/-- The live ranges of `fourScalings`. -/
def fourScalingsPlan : LivenessPlan := (Schedule.mk [0, 1, 2, 3]).liveness fourScalings

/-- The layout of `fourScalings` under the standard settings. Neighbouring intermediates are live
together and lie apart; the third takes the bytes of the first. -/
def fourScalingsLayout : Layout where
  allocations := [⟨0, "x", .dynamic, .value 0, .value 32⟩, ⟨1, "s", .static, .value 0, .value 16⟩,
    ⟨2, "AxiswiseScale0_y", .dynamic, .value 64, .value 32⟩,
    ⟨3, "AxiswiseScale1_y", .dynamic, .value 96, .value 32⟩,
    ⟨4, "AxiswiseScale2_y", .dynamic, .value 64, .value 32⟩,
    ⟨5, "AxiswiseScale3_y", .dynamic, .value 32, .value 32⟩]
  staticSize := .value 16
  dynamicSize := .value 128
  alignment := 16

theorem pack_fourScalings :
    Arena.pack [⟨2, 32, ⟨2, .intermediate, 0, 1⟩⟩, ⟨3, 32, ⟨3, .intermediate, 1, 2⟩⟩,
      ⟨4, 32, ⟨4, .intermediate, 2, 3⟩⟩] =
      .ok ⟨[⟨⟨4, 32, ⟨4, .intermediate, 2, 3⟩⟩, 0⟩, ⟨⟨3, 32, ⟨3, .intermediate, 1, 2⟩⟩, 32⟩,
        ⟨⟨2, 32, ⟨2, .intermediate, 0, 1⟩⟩, 0⟩], 64⟩ := by
  rw [Arena.pack, List.mergeSort_of_pairwise (by decide +kernel)]
  decide +kernel

/-- The stages of the layout of `fourScalings`. Sorting does not evaluate, so the arena is given. -/
theorem allocate_fourScalings :
    fourScalings.allocate fourScalingsPlan .standard = .ok fourScalingsLayout := by
  have hsized : fourScalings.sizedTensors 16 = .ok (fourScalings.tensors.zip
      [.value 32, .value 16, .value 32, .value 32, .value 32, .value 32]) := by decide +kernel
  unfold allocate
  refine Computation.guard_eq_ok.2 ⟨by decide +kernel, ?_⟩
  refine Computation.bind_eq_ok.2 ⟨_, hsized, ?_⟩
  refine Computation.bind_eq_ok.2 ⟨⟨[⟨1, "s", .static, .value 0, .value 16⟩], 16⟩,
    by decide +kernel, ?_⟩
  refine Computation.bind_eq_ok.2 ⟨⟨[⟨0, "x", .dynamic, .value 0, .value 32⟩,
    ⟨5, "AxiswiseScale3_y", .dynamic, .value 32, .value 32⟩], 64⟩, by decide +kernel, ?_⟩
  refine Computation.bind_eq_ok.2 ⟨_, ?_, Computation.bind_eq_ok.2 ⟨_, pack_fourScalings, ?_⟩⟩
  · decide +kernel
  · decide +kernel

/-- The first and the third intermediate have all their bytes in common, so they are never live
together. -/
theorem layout_safe_fourScalings :
    fourScalingsLayout.Safe fourScalings fourScalingsPlan ∧
      fourScalings.checkLayout fourScalingsLayout = .ok () ∧
      (fourScalingsLayout.get 2).map Allocation.byteRange? = .ok (some (64, 96)) ∧
      (fourScalingsLayout.get 4).map Allocation.byteRange? = .ok (some (64, 96)) ∧
      fourScalingsPlan.NeverTogether 2 4 := by
  obtain ⟨hsafe, hcheck⟩ :=
    Reachable.layout_safe ⟨_, rfl⟩ allocate_fourScalings (by simp [fourScalingsLayout])
  refine ⟨hsafe, hcheck _ (by decide +kernel) rfl, by decide +kernel, by decide +kernel, ?_⟩
  have hfirst : ⟨2, "AxiswiseScale0_y", .intermediate, ⟨.nc, [.value 2, .value 4], rfl⟩, some 0,
      [1]⟩ ∈ fourScalings.tensors := by decide +kernel
  have hthird : ⟨4, "AxiswiseScale2_y", .intermediate, ⟨.nc, [.value 2, .value 4], rfl⟩, some 2,
      [3]⟩ ∈ fourScalings.tensors := by decide +kernel
  have hapart := hsafe.apart _ hfirst _ hthird (by decide)
    ⟨2, "AxiswiseScale0_y", .dynamic, .value 64, .value 32⟩
    ⟨4, "AxiswiseScale2_y", .dynamic, .value 64, .value 32⟩
    (by decide +kernel) (by decide +kernel) rfl (64, 96) (64, 96) rfl rfl
  rcases hapart with hbefore | hbehind | ⟨-, -, hnever⟩
  · exact absurd hbefore (by decide)
  · exact absurd hbehind (by decide)
  · exact hnever

end Graph

end TensorLowering
