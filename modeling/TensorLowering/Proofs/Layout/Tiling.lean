import TensorLowering.Layout.Allocate
import TensorLowering.Proofs.Symbol.Evaluation

/-!
# Regions one after the other

Under a table that gives values to its ends, a region takes a stretch of bytes
(`Allocation.Spans`). `Tiles` says that a list of regions fills a stretch of bytes from one end to
the other, each region beginning where the one before it stops. What follows from it follows by
induction on the list: all regions stay within the stretch, no two of them share a byte, and all
begin at a multiple of what divides their lengths. The stacks of known size are tiled
(`Stack.tiles_of_pushAll`).
-/

namespace TensorLowering

namespace Allocation

variable {a : Allocation} {t : SymbolTable} {start stop start' stop' : Int}

/-- The region belongs to a tensor, in a space, with a size. -/
structure IsOf (a : Allocation) (space : Space) (x : Tensor) (size : Extent) : Prop where
  tensor : a.tensor = x.id
  name : a.name = x.name
  space : a.space = space
  size : a.size = size

/-- Under the table, the region takes the bytes from `start` up to `stop`. -/
def Spans (a : Allocation) (t : SymbolTable) (start stop : Int) : Prop :=
  ∃ offset size, t.Evaluates a.offset offset ∧ t.Evaluates a.size size ∧
    start = offset.toInt ∧ stop = offset.toInt + size.toInt

/-- A region takes at most one stretch of bytes. -/
theorem Spans.unique (h : a.Spans t start stop) (h' : a.Spans t start' stop') :
    start = start' ∧ stop = stop' := by
  obtain ⟨offset, size, hoffset, hsize, rfl, rfl⟩ := h
  obtain ⟨offset', size', hoffset', hsize', rfl, rfl⟩ := h'
  rw [hoffset.unique hoffset', hsize.unique hsize']
  exact ⟨rfl, rfl⟩

/-- A region of known place takes its byte range, under every table. -/
theorem spans_of_byteRange? (t : SymbolTable) (h : a.byteRange? = some (start, stop)) :
    a.Spans t start stop := by
  unfold byteRange? at h
  split at h
  · next offset size hoffset hsize =>
    cases h
    rw [Extent.asValue_eq_some_iff] at hoffset hsize
    exact ⟨offset, size, hoffset ▸ SymbolTable.evaluates_value.2 rfl,
      hsize ▸ SymbolTable.evaluates_value.2 rfl, rfl, rfl⟩
  · cases h

/-- A region at a literal offset that a word can hold, with a literal size. -/
theorem spans_ofInt {n : Int} {size : Int64} (hn : FitsWord n)
    (hoffset : a.offset = .value (.ofInt n)) (hsize : a.size = .value size) (t : SymbolTable) :
    a.Spans t n (n + size.toInt) := by
  have hint : (Int64.ofInt n).toInt = n := hn.toInt_ofInt
  refine ⟨.ofInt n, size, hoffset ▸ SymbolTable.evaluates_value.2 rfl,
    hsize ▸ SymbolTable.evaluates_value.2 rfl, hint.symm, by rw [hint]⟩

end Allocation

/-! ## Tiled stretches -/

/-- Under the table, the regions fill the bytes from the first number up to the second, each
beginning where the one before it stops. -/
inductive Tiles (t : SymbolTable) : Int → List Allocation → Int → Prop
  | nil (low : Int) : Tiles t low [] low
  | cons {a : Allocation} {rest : List Allocation} {low mid high : Int}
      (span : a.Spans t low mid) (le : low ≤ mid) (tiles : Tiles t mid rest high) :
      Tiles t low (a :: rest) high

namespace Tiles

variable {t : SymbolTable} {regions others : List Allocation} {low mid high : Int}

theorem le (h : Tiles t low regions high) : low ≤ high := by
  induction h with
  | nil => exact Int.le_refl _
  | cons _ hle _ ih => exact Int.le_trans hle ih

/-- Two stretches, one upon the other. -/
theorem append (h : Tiles t low regions mid) (h' : Tiles t mid others high) :
    Tiles t low (regions ++ others) high := by
  induction h with
  | nil => exact h'
  | cons hspan hle _ ih => exact .cons hspan hle (ih h')

/-- Every region lies within the stretch. -/
theorem within (h : Tiles t low regions high) {a : Allocation} (ha : a ∈ regions) :
    ∃ start stop, a.Spans t start stop ∧ low ≤ start ∧ start ≤ stop ∧ stop ≤ high := by
  induction h with
  | nil => cases ha
  | cons hspan hle htiles ih =>
    rcases List.mem_cons.1 ha with rfl | ha
    · exact ⟨_, _, hspan, Int.le_refl _, hle, htiles.le⟩
    · obtain ⟨start, stop, hspan', hlow, hle', hhigh⟩ := ih ha
      exact ⟨start, stop, hspan', Int.le_trans hle hlow, hle', hhigh⟩

/-- Regions of different tensors share no byte. -/
theorem apart (h : Tiles t low regions high) {a b : Allocation} (ha : a ∈ regions)
    (hb : b ∈ regions) (hne : a.tensor ≠ b.tensor) {start stop start' stop' : Int}
    (hspan : a.Spans t start stop) (hspan' : b.Spans t start' stop') :
    stop ≤ start' ∨ stop' ≤ start := by
  induction h with
  | nil => cases ha
  | cons hfirst hle htiles ih =>
    rcases List.mem_cons.1 ha with rfl | ha' <;> rcases List.mem_cons.1 hb with rfl | hb'
    · exact absurd rfl hne
    · obtain ⟨s, e, hs, hlow, -, -⟩ := htiles.within hb'
      obtain ⟨rfl, rfl⟩ := hspan.unique hfirst
      obtain ⟨rfl, rfl⟩ := hspan'.unique hs
      exact .inl hlow
    · obtain ⟨s, e, hs, hlow, -, -⟩ := htiles.within ha'
      obtain ⟨rfl, rfl⟩ := hspan'.unique hfirst
      obtain ⟨rfl, rfl⟩ := hspan.unique hs
      exact .inr hlow
    · exact ih ha' hb'

/-- What divides the beginning of the stretch and every length divides the end and every start. -/
theorem dvd {d : Int} (h : Tiles t low regions high) (hlow : d ∣ low)
    (hlength : ∀ a ∈ regions, ∀ start stop, a.Spans t start stop → d ∣ stop - start) :
    d ∣ high ∧ ∀ a ∈ regions, ∀ start stop, a.Spans t start stop → d ∣ start := by
  induction h with
  | nil => exact ⟨hlow, nofun⟩
  | @cons a rest low mid high hspan hle htiles ih =>
    obtain ⟨hfirst, hrest⟩ := List.forall_mem_cons.1 hlength
    have hmid : d ∣ mid := by
      have := Int.dvd_add (hfirst _ _ hspan) hlow
      rwa [Int.sub_add_cancel] at this
    obtain ⟨hhigh, hstarts⟩ := ih hmid hrest
    refine ⟨hhigh, List.forall_mem_cons.2 ⟨fun start stop hspan' => ?_, hstarts⟩⟩
    rw [(hspan'.unique hspan).1]
    exact hlow

end Tiles

/-! ## Stacks of known size -/

namespace Stack

variable {s s' : Stack} {space : Space} {x : Tensor} {size : Int64} {t : SymbolTable}
  {items : List (Tensor × Int64)} {tensors : List SizedTensor}

/-- A stack with the regions of a list of tensors of known size. -/
def pushAll (space : Space) (s : Stack) (items : List (Tensor × Int64)) : Lowering Stack :=
  items.foldlM (fun s p => s.push space p.1 p.2) s

/-- One more region begins at the height of the stack, and the next one where it stops. -/
theorem push_eq_ok (h : s.push space x size = .ok s') :
    FitsWord s'.height ∧ s'.height = s.height + size.toInt ∧
      ∃ a, s'.placed = s.placed ++ [a] ∧ a.IsOf space x (.value size) ∧ a.isResolved = true ∧
        (FitsWord s.height → ∀ t, a.Spans t s.height s'.height) := by
  obtain ⟨height, hheight, h⟩ := Computation.bind_eq_ok.1 h
  obtain ⟨hfits, rfl⟩ := addBytes_eq_ok_iff.1 hheight
  cases h
  exact ⟨hfits, rfl, _, rfl, ⟨rfl, rfl, rfl, rfl⟩, rfl,
    fun hheight t => Allocation.spans_ofInt hheight rfl rfl t⟩

/-- The regions of a pushed list come after those that were there, in the order of the list. -/
theorem exists_regions_of_pushAll (h : s.pushAll space items = .ok s') :
    ∃ regions, s'.placed = s.placed ++ regions ∧
      List.Forall₂ (fun p a => a.IsOf space p.1 (.value p.2) ∧ a.isResolved = true)
        items regions := by
  induction items generalizing s with
  | nil =>
    cases h
    exact ⟨[], (List.append_nil _).symm, .nil⟩
  | cons p rest ih =>
    obtain ⟨m, hm, hrest⟩ := Computation.foldlM_cons_eq_ok.1 h
    obtain ⟨-, -, a, hplaced, hof, hresolved, -⟩ := push_eq_ok hm
    obtain ⟨regions, hregions, hall⟩ := ih hrest
    refine ⟨a :: regions, ?_, .cons ⟨hof, hresolved⟩ hall⟩
    rw [hregions, hplaced, List.append_assoc, List.singleton_append]

/-- The regions of a stack that was pushed from nothing are those of the list, in order. -/
theorem regions_of_pushAll (h : empty.pushAll space items = .ok s') :
    List.Forall₂ (fun p a => a.IsOf space p.1 (.value p.2) ∧ a.isResolved = true)
      items s'.placed := by
  obtain ⟨regions, hregions, hall⟩ := exists_regions_of_pushAll h
  rw [hregions]
  exact hall

/-- A stack of regions whose sizes are not negative is tiled, under every table. -/
theorem tiles_of_pushAll (h : s.pushAll space items = .ok s') (t : SymbolTable)
    (hnonneg : ∀ p ∈ items, 0 ≤ p.2.toInt) (hfits : FitsWord s.height)
    (htiles : Tiles t 0 s.placed s.height) :
    FitsWord s'.height ∧ Tiles t 0 s'.placed s'.height := by
  induction items generalizing s with
  | nil =>
    cases h
    exact ⟨hfits, htiles⟩
  | cons p rest ih =>
    obtain ⟨hfirst, hrest⟩ := List.forall_mem_cons.1 hnonneg
    obtain ⟨m, hm, h⟩ := Computation.foldlM_cons_eq_ok.1 h
    obtain ⟨hfits', hheight, a, hplaced, -, -, hspan⟩ := push_eq_ok hm
    refine ih h hrest hfits' ?_
    rw [hplaced]
    exact htiles.append (.cons (hspan hfits t) (by omega) (.nil _))

/-- Pushing what is of known size, and leaving the rest out. -/
theorem foldlM_pushResolved (s : Stack) (tensors : List SizedTensor) :
    tensors.foldlM pushResolved s = s.pushAll .dynamic (resolvedSizes tensors) := by
  induction tensors generalizing s with
  | nil => rfl
  | cons p rest ih =>
    obtain ⟨x, size⟩ := p
    rw [List.foldlM_cons]
    cases hsize : size.asValue with
    | none =>
      simp only [pushResolved, hsize, resolvedSizes, List.filterMap_cons, Option.map_none]
      exact ih s
    | some n =>
      simp only [pushResolved, hsize, resolvedSizes, List.filterMap_cons, Option.map_some,
        pushAll, List.foldlM_cons]
      exact bind_congr fun m => ih m

/-- Pushing weights succeeds only when all are of known size. -/
theorem foldlM_pushWeight (h : tensors.foldlM (pushWeight t) s = .ok s') :
    s.pushAll .static (resolvedSizes tensors) = .ok s' ∧ symbolicSizes tensors = [] := by
  induction tensors generalizing s with
  | nil => exact ⟨h, rfl⟩
  | cons p rest ih =>
    obtain ⟨x, size⟩ := p
    obtain ⟨m, hm, hrest⟩ := Computation.foldlM_cons_eq_ok.1 h
    obtain ⟨hall, hnone⟩ := ih hrest
    cases hsize : size.asValue with
    | none =>
      simp only [pushWeight, hsize] at hm
      cases hm
    | some n =>
      simp only [pushWeight, hsize] at hm
      refine ⟨?_, by simpa [symbolicSizes, hsize] using hnone⟩
      simp only [resolvedSizes, List.filterMap_cons, hsize, Option.map_some]
      exact Computation.foldlM_cons_eq_ok.2 ⟨m, hm, hall⟩

end Stack

end TensorLowering
