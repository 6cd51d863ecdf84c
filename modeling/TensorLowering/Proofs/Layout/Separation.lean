import TensorLowering.Proofs.Layout.Regions

/-!
# Regions are kept apart

What the parts of a layout say about bytes under a table. Both stacks and the tail are tiled, the
arena lies between the dynamic stack and the tail, and inside the arena only tensors that are never
live together can meet. So two regions of known place in one space are apart unless both are in the
arena (`LayoutParts.Build.apart_of_known`), and a region of the tail is apart from every other
dynamic region as soon as the end of the tail has a value (`LayoutParts.Build.apart_of_tail`). Both
need that no size is negative.
-/

namespace TensorLowering

/-- Both tensors have a range in the plan, and the ranges share no step. -/
def LivenessPlan.NeverTogether (plan : LivenessPlan) (a b : TensorId) : Prop :=
  ∃ r s, plan.range? a = some r ∧ plan.range? b = some s ∧ r.overlaps s = false

namespace LayoutParts

/-- No size that is known is negative. -/
def NonnegKnown (p : LayoutParts) : Prop :=
  ∀ s ∈ p.sized, ∀ n, s.2 = .value n → 0 ≤ n.toInt

/-- No size is negative that the table gives a value. -/
def Nonneg (p : LayoutParts) (t : SymbolTable) : Prop :=
  ∀ s ∈ p.sized, ∀ n, t.Evaluates s.2 n → 0 ≤ n.toInt

theorem Nonneg.known {p : LayoutParts} {t : SymbolTable} (h : p.Nonneg t) : p.NonnegKnown :=
  fun s hs n hn => h s hs n (hn ▸ SymbolTable.evaluates_value.2 rfl)

namespace Build

variable {p : LayoutParts} {g : Graph} {plan : LivenessPlan} {alignment : UInt64} {l : Layout}
  {a b : Allocation} {t : SymbolTable} {start stop start' stop' : Int} {T : Int64}

/-! ## The parts -/

/-- The stack of the weights is tiled. -/
theorem tiles_weights (hb : p.Build g plan alignment l) (hnonneg : p.NonnegKnown)
    (t : SymbolTable) :
    FitsWord p.weights.height ∧ Tiles t 0 p.weights.placed p.weights.height := by
  refine Stack.tiles_of_pushAll hb.weights t (fun s hs => ?_) (by decide) (.nil 0)
  exact hnonneg _ (mem_ofRole.1 (mem_resolvedSizes.1 hs)).1 _ rfl

/-- The stack of inputs and outputs is tiled. -/
theorem tiles_dedicated (hb : p.Build g plan alignment l) (hnonneg : p.NonnegKnown)
    (t : SymbolTable) :
    FitsWord p.dedicated.height ∧ Tiles t 0 p.dedicated.placed p.dedicated.height := by
  refine Stack.tiles_of_pushAll hb.dedicated t (fun s hs => ?_) (by decide) (.nil 0)
  rcases List.mem_append.1 (mem_resolvedSizes.1 hs) with hs | hs
  · exact hnonneg _ (mem_ofRole.1 hs).1 _ rfl
  · exact hnonneg _ (mem_ofRole.1 hs).1 _ rfl

/-- The tail is tiled under a table that gives its end a value. -/
theorem tiles_tail (hb : p.Build g plan alignment l) (hnonneg : p.Nonneg t)
    (hT : t.Evaluates (p.tail g.symbols).2 T) :
    Tiles t p.resolvedEnd (p.tail g.symbols).1 T.toInt := by
  obtain ⟨first, hfirst, htiles⟩ := symbolicTail_tiles (t := g.symbols) rfl
    (fun s hs => Graph.simplify_byteSize (hb.tensor_of_sized (mem_symbolic.1 hs).1).2)
    (fun s hs n hn => hnonneg s (mem_symbolic.1 hs).1 n hn) hT
  have hint : first.toInt = p.resolvedEnd := by
    rw [← SymbolTable.evaluates_value.1 hfirst]
    exact hb.fits.toInt_ofInt
  rwa [hint] at htiles

/-- A packed region lies in the arena. -/
theorem packed_within (hb : p.Build g plan alignment l) (hnonneg : p.NonnegKnown)
    (ha : a ∈ p.packed) (t : SymbolTable) :
    ∃ start stop, a.Spans t start stop ∧
      p.dedicated.height ≤ start ∧ start ≤ stop ∧ stop ≤ p.resolvedEnd := by
  obtain ⟨⟨x, n⟩, hs, live, placement, hpack⟩ := Computation.exists_item_of_mem hb.packed ha
  have hn := hnonneg _ (mem_ofRole.1 (mem_resolvedSizes.1 hs)).1 n rfl
  have hlow := hb.arena.offset_nonneg _ hpack.placed
  have hhigh := hb.arena.stop_le _ hpack.placed
  refine ⟨_, _, hpack.spans t, by omega, ?_, Int.add_le_add_left hhigh _⟩
  rw [Placement.stop, hpack.parcel]
  dsimp only
  omega

/-- Two packed regions are apart, or belong to tensors that are never live together. -/
theorem apart_of_packed (hb : p.Build g plan alignment l) (ha : a ∈ p.packed) (hb' : b ∈ p.packed)
    (hne : a.tensor ≠ b.tensor) (hspan : a.Spans t start stop) (hspan' : b.Spans t start' stop') :
    stop ≤ start' ∨ stop' ≤ start ∨ plan.NeverTogether a.tensor b.tensor := by
  obtain ⟨⟨x, n⟩, -, live, q, hpack⟩ := Computation.exists_item_of_mem hb.packed ha
  obtain ⟨⟨y, m⟩, -, live', q', hpack'⟩ := Computation.exists_item_of_mem hb.packed hb'
  obtain ⟨rfl, rfl⟩ := hspan.unique (hpack.spans t)
  obtain ⟨rfl, rfl⟩ := hspan'.unique (hpack'.spans t)
  rw [hpack.region.tensor, hpack'.region.tensor] at hne ⊢
  cases hlive : live.overlaps live' with
  | false => exact .inr (.inr ⟨live, live', hpack.range, hpack'.range, hlive⟩)
  | true =>
    have hapart := hb.arena.apart q hpack.placed q' hpack'.placed
      (by rw [hpack.parcel, hpack'.parcel]; exact hne)
      (by rw [hpack.parcel, hpack'.parcel]; exact hlive)
    omega

/-! ## Known places -/

/-- A dynamic region of known place lies below the tail. -/
theorem known_within (hb : p.Build g plan alignment l) (hnonneg : p.NonnegKnown)
    (ha : a ∈ p.dedicated.placed ∨ a ∈ p.packed) (t : SymbolTable) :
    ∃ start stop, a.Spans t start stop ∧ 0 ≤ start ∧ start ≤ stop ∧ stop ≤ p.resolvedEnd := by
  obtain ⟨-, htiles⟩ := hb.tiles_dedicated hnonneg t
  have hheight := htiles.le
  have harena := hb.arena.size_nonneg
  rcases ha with ha | ha
  · obtain ⟨start, stop, hspan, hlow, hle, hhigh⟩ := htiles.within ha
    exact ⟨start, stop, hspan, hlow, hle, by unfold resolvedEnd; omega⟩
  · obtain ⟨start, stop, hspan, hlow, hle, hhigh⟩ := hb.packed_within hnonneg ha t
    exact ⟨start, stop, hspan, by omega, hle, hhigh⟩

/-- Two dynamic regions of known place are apart, or both are packed and belong to tensors that are
never live together. -/
theorem apart_of_known (hb : p.Build g plan alignment l) (hnonneg : p.NonnegKnown)
    (ha : a ∈ p.dedicated.placed ∨ a ∈ p.packed) (hb' : b ∈ p.dedicated.placed ∨ b ∈ p.packed)
    (hne : a.tensor ≠ b.tensor) (hspan : a.Spans t start stop) (hspan' : b.Spans t start' stop') :
    stop ≤ start' ∨ stop' ≤ start ∨
      a ∈ p.packed ∧ b ∈ p.packed ∧ plan.NeverTogether a.tensor b.tensor := by
  obtain ⟨-, htiles⟩ := hb.tiles_dedicated hnonneg t
  -- A region of the stack ends where the arena begins, at the latest.
  have hcross : ∀ {c d : Allocation} {s e s' e' : Int}, c ∈ p.dedicated.placed → d ∈ p.packed →
      c.Spans t s e → d.Spans t s' e' → e ≤ s' := by
    intro c d s e s' e' hc hd hspanc hspand
    obtain ⟨_, _, hwithin, -, -, hhigh⟩ := htiles.within hc
    obtain ⟨_, _, hwithin', hlow, -, -⟩ := hb.packed_within hnonneg hd t
    obtain ⟨rfl, rfl⟩ := hspanc.unique hwithin
    obtain ⟨rfl, rfl⟩ := hspand.unique hwithin'
    exact Int.le_trans hhigh hlow
  rcases ha with ha | ha <;> rcases hb' with hb' | hb'
  · rcases htiles.apart ha hb' hne hspan hspan' with h | h
    · exact .inl h
    · exact .inr (.inl h)
  · exact .inl (hcross ha hb' hspan hspan')
  · exact .inr (.inl (hcross hb' ha hspan' hspan))
  · rcases hb.apart_of_packed ha hb' hne hspan hspan' with h | h | h
    · exact .inl h
    · exact .inr (.inl h)
    · exact .inr (.inr ⟨ha, hb', h⟩)

/-! ## The tail -/

/-- A region of the tail is apart from every other dynamic region, once the end of the tail has a
value. -/
theorem apart_of_tail (hb : p.Build g plan alignment l) (hnonneg : p.Nonneg t)
    (hT : t.Evaluates (p.tail g.symbols).2 T) (ha : a ∈ (p.tail g.symbols).1)
    (hb' : b ∈ p.dedicated.placed ∨ b ∈ p.packed ∨ b ∈ (p.tail g.symbols).1)
    (hne : a.tensor ≠ b.tensor) (hspan : a.Spans t start stop) (hspan' : b.Spans t start' stop') :
    stop ≤ start' ∨ stop' ≤ start := by
  have htiles := hb.tiles_tail hnonneg hT
  have hknown : b ∈ p.dedicated.placed ∨ b ∈ p.packed → stop' ≤ start := by
    intro hmem
    obtain ⟨_, _, hwithin, -, -, hhigh⟩ := hb.known_within hnonneg.known hmem t
    obtain ⟨_, _, hwithin', hlow, -, -⟩ := htiles.within ha
    obtain ⟨rfl, rfl⟩ := hspan'.unique hwithin
    obtain ⟨rfl, rfl⟩ := hspan.unique hwithin'
    exact Int.le_trans hhigh hlow
  rcases hb' with hb' | hb' | hb'
  · exact .inr (hknown (.inl hb'))
  · exact .inr (hknown (.inr hb'))
  · exact htiles.apart ha hb' hne hspan hspan'

/-- Every dynamic region lies between zero and the end of the tail, once that has a value. -/
theorem dynamic_within (hb : p.Build g plan alignment l) (hnonneg : p.Nonneg t)
    (hT : t.Evaluates (p.tail g.symbols).2 T)
    (ha : a ∈ p.dedicated.placed ∨ a ∈ p.packed ∨ a ∈ (p.tail g.symbols).1) :
    ∃ start stop, a.Spans t start stop ∧ 0 ≤ start ∧ start ≤ stop ∧ stop ≤ T.toInt := by
  have htiles := hb.tiles_tail hnonneg hT
  have hend := htiles.le
  have hknown : a ∈ p.dedicated.placed ∨ a ∈ p.packed →
      ∃ start stop, a.Spans t start stop ∧ 0 ≤ start ∧ start ≤ stop ∧ stop ≤ T.toInt := by
    intro hmem
    obtain ⟨start, stop, hspan, hlow, hle, hhigh⟩ := hb.known_within hnonneg.known hmem t
    exact ⟨start, stop, hspan, hlow, hle, Int.le_trans hhigh hend⟩
  rcases ha with ha | ha | ha
  · exact hknown (.inl ha)
  · exact hknown (.inr ha)
  · obtain ⟨start, stop, hspan, hlow, hle, hhigh⟩ := htiles.within ha
    have hheight := (hb.tiles_dedicated hnonneg.known t).2.le
    have harena := hb.arena.size_nonneg
    unfold resolvedEnd at hlow
    exact ⟨start, stop, hspan, by omega, hle, hhigh⟩

/-! ## All regions -/

/-- A region lies in the static stack, or in one of the dynamic lists, as its space says. -/
theorem space_cases (hb : p.Build g plan alignment l) (ha : a ∈ p.regions g.symbols) :
    a.space = .static ∧ a ∈ p.weights.placed ∨
      a.space = .dynamic ∧
        (a ∈ p.dedicated.placed ∨ a ∈ p.packed ∨ a ∈ (p.tail g.symbols).1) := by
  obtain ⟨s, -, hof, hcases⟩ := hb.region_cases ha
  rw [hof.space]
  rcases hcases with ⟨hrole, h⟩ | ⟨hrole, h⟩ | ⟨hrole, h⟩ | ⟨hrole, -, h⟩
  · exact .inl ⟨by rw [hrole]; rfl, h⟩
  · exact .inr ⟨by rcases hrole with hrole | hrole <;> rw [hrole] <;> rfl, .inl h⟩
  · exact .inr ⟨by rw [hrole]; rfl, .inr (.inl h)⟩
  · exact .inr ⟨Role.space_eq_dynamic hrole, .inr (.inr h)⟩

/-- A static region lies in the static stack. -/
theorem mem_weights_of_static (hb : p.Build g plan alignment l) (ha : a ∈ p.regions g.symbols)
    (hstatic : a.space = .static) : a ∈ p.weights.placed := by
  rcases hb.space_cases ha with ⟨-, ha⟩ | ⟨hdynamic, -⟩
  · exact ha
  · rw [hstatic] at hdynamic
    cases hdynamic

/-- A dynamic region lies in one of the dynamic lists. -/
theorem mem_of_dynamic (hb : p.Build g plan alignment l) (ha : a ∈ p.regions g.symbols)
    (hdynamic : a.space = .dynamic) :
    a ∈ p.dedicated.placed ∨ a ∈ p.packed ∨ a ∈ (p.tail g.symbols).1 := by
  rcases hb.space_cases ha with ⟨hstatic, -⟩ | ⟨-, ha⟩
  · rw [hstatic] at hdynamic
    cases hdynamic
  · exact ha

/-- Every region takes a stretch of bytes under a table that gives the end of the tail a value. -/
theorem exists_spans (hb : p.Build g plan alignment l) (hnonneg : p.Nonneg t)
    (hT : t.Evaluates (p.tail g.symbols).2 T) (ha : a ∈ p.regions g.symbols) :
    ∃ start stop, a.Spans t start stop ∧ 0 ≤ start ∧ start ≤ stop := by
  rcases hb.space_cases ha with ⟨-, ha⟩ | ⟨-, ha⟩
  · obtain ⟨start, stop, hspan, hlow, hle, -⟩ :=
      (hb.tiles_weights hnonneg.known t).2.within ha
    exact ⟨start, stop, hspan, hlow, hle⟩
  · obtain ⟨start, stop, hspan, hlow, hle, -⟩ := hb.dynamic_within hnonneg hT ha
    exact ⟨start, stop, hspan, hlow, hle⟩

/-- Two regions in one space are apart, or both are packed and belong to tensors that are never live
together. The end of the tail has to have a value only where one of the regions is in the tail. -/
theorem apart (hb : p.Build g plan alignment l) (hnonneg : p.NonnegKnown)
    (htail : a ∈ (p.tail g.symbols).1 ∨ b ∈ (p.tail g.symbols).1 →
      p.Nonneg t ∧ ∃ T, t.Evaluates (p.tail g.symbols).2 T)
    (ha : a ∈ p.regions g.symbols) (hb' : b ∈ p.regions g.symbols) (hspace : a.space = b.space)
    (hne : a.tensor ≠ b.tensor) (hspan : a.Spans t start stop) (hspan' : b.Spans t start' stop') :
    stop ≤ start' ∨ stop' ≤ start ∨
      a ∈ p.packed ∧ b ∈ p.packed ∧ plan.NeverTogether a.tensor b.tensor := by
  have htwo : ∀ {P : Prop}, stop ≤ start' ∨ stop' ≤ start → stop ≤ start' ∨ stop' ≤ start ∨ P := by
    rintro P (h | h)
    · exact .inl h
    · exact .inr (.inl h)
  rcases hb.space_cases ha with ⟨hstatic, ha⟩ | ⟨hdynamic, ha⟩
  · have hb' := hb.mem_weights_of_static hb' (hspace.symm.trans hstatic)
    exact htwo ((hb.tiles_weights hnonneg t).2.apart ha hb' hne hspan hspan')
  · have hb' := hb.mem_of_dynamic hb' (hspace.symm.trans hdynamic)
    by_cases hta : a ∈ (p.tail g.symbols).1
    · obtain ⟨hnonneg, T, hT⟩ := htail (.inl hta)
      exact htwo (hb.apart_of_tail hnonneg hT hta hb' hne hspan hspan')
    by_cases htb : b ∈ (p.tail g.symbols).1
    · obtain ⟨hnonneg, T, hT⟩ := htail (.inr htb)
      exact htwo (hb.apart_of_tail hnonneg hT htb ha hne.symm hspan' hspan).symm
    · refine hb.apart_of_known hnonneg ?_ ?_ hne hspan hspan'
      · exact ha.imp_right fun h => h.resolve_right hta
      · exact hb'.imp_right fun h => h.resolve_right htb

end Build

end LayoutParts

end TensorLowering
