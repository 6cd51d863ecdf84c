import TensorLowering.Program.Basic
import TensorLowering.Proofs.Graph.Obligations

/-!
# What a lowering is made of

A successful lowering is a successful check, report, layout and generation of kernels
(`Graph.lower_eq_ok`). Only the report depends on whether the lowering is strict. Of a reachable
graph it lists what its operators still demand, and a strict lowering succeeds just when that list
is empty.
-/

namespace TensorLowering

/-! ## What a lowering reports -/

/-- The line that reports an open obligation of an operator. -/
def preconditionLine (t : SymbolTable) : Operator × Obligation → String
  | (op, o) => op.label ++ ": " ++ o.render t

section
variable {t : SymbolTable} {items : List (Operator × Obligation)} {lines : List String}

/-- A lowering that is not strict reports the obligations that are open, and stops only at one that
is violated. -/
theorem preconditions_eq_ok :
    preconditions false t items = .ok lines ↔
      (∀ p ∈ items, p.2.Tenable p.1.label t) ∧
        lines = (items.filter fun p => p.2.isOpen p.1.label t).map (preconditionLine t) := by
  induction items generalizing lines with
  | nil => simp [preconditions, pure, Except.pure, eq_comm]
  | cons p rest ih =>
    obtain ⟨op, o⟩ := p
    simp only [preconditions, Computation.bind_eq_ok, List.forall_mem_cons]
    constructor
    · rintro ⟨met, hmet, h⟩
      cases met with
      | true =>
        obtain ⟨hrest, rfl⟩ := ih.1 h
        exact ⟨⟨⟨true, hmet⟩, hrest⟩, by simp [Obligation.isOpen, hmet]⟩
      | false =>
        obtain ⟨others, hothers, h⟩ := Computation.bind_eq_ok.1 h
        obtain ⟨hrest, rfl⟩ := ih.1 hothers
        cases h
        exact ⟨⟨⟨false, hmet⟩, hrest⟩, by simp [Obligation.isOpen, hmet, preconditionLine]⟩
    · rintro ⟨⟨⟨met, hmet⟩, hrest⟩, rfl⟩
      refine ⟨met, hmet, ?_⟩
      cases met with
      | true => exact ih.2 ⟨hrest, by simp [Obligation.isOpen, hmet]⟩
      | false =>
        refine Computation.bind_eq_ok.2 ⟨_, ih.2 ⟨hrest, rfl⟩, ?_⟩
        simp [Obligation.isOpen, hmet, preconditionLine, pure, Except.pure]

/-- A strict lowering goes on only when every obligation is met, and then reports nothing. -/
theorem preconditions_strict_eq_ok :
    preconditions true t items = .ok lines ↔
      (∀ p ∈ items, p.2.check p.1.label t = .ok true) ∧ lines = [] := by
  induction items generalizing lines with
  | nil => simp [preconditions, pure, Except.pure, eq_comm]
  | cons p rest ih =>
    obtain ⟨op, o⟩ := p
    simp only [preconditions, Computation.bind_eq_ok, List.forall_mem_cons]
    constructor
    · rintro ⟨met, hmet, h⟩
      cases met with
      | true =>
        obtain ⟨hrest, rfl⟩ := ih.1 h
        exact ⟨⟨hmet, hrest⟩, rfl⟩
      | false => cases h
    · rintro ⟨⟨hmet, hrest⟩, rfl⟩
      exact ⟨true, hmet, ih.2 ⟨hrest, rfl⟩⟩

end

namespace Graph

variable {g : Graph}

/-- The obligations of a settled graph are all open. -/
theorem Settled.isOpen_of_mem_pending (hs : g.Settled) {p : Operator × Obligation}
    (hp : p ∈ g.pending) : p.2.isOpen p.1.label g.symbols = true := by
  obtain ⟨op, hop, hp⟩ := List.mem_flatMap.1 hp
  obtain ⟨o, ho, rfl⟩ := List.mem_map.1 hp
  obtain ⟨os, -, -, hpend⟩ := hs op hop
  rw [hpend] at ho
  exact (List.mem_filter.1 ho).2

/-- Lowering a settled graph without strictness reports all its obligations. -/
theorem Settled.preconditions_eq (hs : g.Settled) :
    preconditions false g.symbols g.pending =
      .ok (g.pending.map (preconditionLine g.symbols)) := by
  refine preconditions_eq_ok.2 ⟨fun p hp => ?_, ?_⟩
  · exact ⟨false, Obligation.isOpen_iff.1 (hs.isOpen_of_mem_pending hp)⟩
  · rw [List.filter_eq_self.2 fun p hp => hs.isOpen_of_mem_pending hp]

/-- Lowering a settled graph strictly gets past its obligations only when it has none. -/
theorem Settled.preconditions_strict_iff (hs : g.Settled) {lines : List String} :
    preconditions true g.symbols g.pending = .ok lines ↔ g.pending = [] ∧ lines = [] := by
  rw [preconditions_strict_eq_ok]
  refine and_congr_left fun _ => ⟨fun hall => ?_, fun hnil => by simp [hnil]⟩
  refine List.eq_nil_iff_forall_not_mem.2 fun p hp => ?_
  have hopen := Obligation.isOpen_iff.1 (hs.isOpen_of_mem_pending hp)
  rw [hall p hp] at hopen
  cases hopen

/-- The obligations of a settled graph are what its operators demand, operator by operator, as far
as it is open. -/
theorem Settled.pending_eq (hs : g.Settled) :
    ∃ demands, g.operators.mapM g.demands = .ok demands ∧
      g.pending = (g.operators.zip demands).flatMap fun (op, os) =>
        (os.filter (Obligation.isOpen op.label g.symbols)).map (op, ·) := by
  simp only [pending, Computation.mapM_eq_ok]
  have hall : ∀ op ∈ g.operators, ∃ os, g.demands op = .ok os ∧
      op.pending = os.filter (Obligation.isOpen op.label g.symbols) := by
    intro op hop
    obtain ⟨os, hos, -, hpend⟩ := hs op hop
    exact ⟨os, hos, hpend⟩
  generalize g.operators = operators at hall
  induction operators with
  | nil => exact ⟨[], .nil, rfl⟩
  | cons op rest ih =>
    obtain ⟨os, hos, hpend⟩ := hall op List.mem_cons_self
    obtain ⟨demands, hdemands, hrest⟩ := ih fun op hop => hall op (List.mem_cons_of_mem _ hop)
    refine ⟨os :: demands, .cons hos hdemands, ?_⟩
    rw [List.flatMap_cons, hrest, hpend, List.zip_cons_cons, List.flatMap_cons]

/-- A lowering is that of a layout and kernels which do not depend on strictness, past the report of
the obligations. -/
theorem lower_eq_ok {config : Config} {p : Program} :
    g.lower config = .ok p ↔
      preconditions config.strict g.symbols g.pending = .ok p.preconditions ∧
        ∃ s, g.check = .ok () ∧ g.schedule = .ok s ∧
          g.allocate (s.liveness g) config = .ok p.layout ∧
          (config.verifyLayout = true → g.checkLayout p.layout = .ok ()) ∧
          g.kernels p.layout [] s.ordered = .ok p.kernels ∧
          p.staticBytes = g.symbols.render (p.layout.totalSize .static) ∧
          p.dynamicBytes = g.symbols.render (p.layout.totalSize .dynamic) := by
  unfold lower
  constructor
  · intro h
    obtain ⟨_, hcheck, h⟩ := Computation.bind_eq_ok.1 h
    obtain ⟨undecided, hundecided, h⟩ := Computation.bind_eq_ok.1 h
    obtain ⟨s, hs, h⟩ := Computation.bind_eq_ok.1 h
    obtain ⟨layout, hlayout, h⟩ := Computation.bind_eq_ok.1 h
    have hend : (config.verifyLayout = true → g.checkLayout layout = .ok ()) ∧
        ((g.kernels layout [] s.ordered).bind fun kernels =>
          .ok ⟨kernels, layout, undecided, g.symbols.render (layout.totalSize .static),
            g.symbols.render (layout.totalSize .dynamic)⟩) = .ok p := by
      split at h
      · obtain ⟨_, hverify, h⟩ := Computation.bind_eq_ok.1 h
        exact ⟨fun _ => hverify, h⟩
      · next hskip => exact ⟨fun hverify => absurd hverify hskip, h⟩
    obtain ⟨kernels, hkernels, h⟩ := Computation.bind_eq_ok.1 hend.2
    cases h
    exact ⟨hundecided, s, hcheck, hs, hlayout, hend.1, hkernels, rfl, rfl⟩
  · obtain ⟨kernels, layout, undecided, staticBytes, dynamicBytes⟩ := p
    rintro ⟨hundecided, s, hcheck, hs, hlayout, hverify, hkernels, hstatic, hdynamic⟩
    dsimp only at hundecided hlayout hverify hkernels hstatic hdynamic
    simp only [hcheck, hundecided, hs, hlayout, hkernels, Computation.ok_bind]
    rw [hstatic, hdynamic]
    split
    · next hc =>
      rw [hverify hc]
      rfl
    · rfl

/-! ## Reachable graphs -/

/-- No obligation is lost or invented. Every applied operator carries, in order, the open ones of
what its rule demands now, and what it does not carry is met; revalidation changes nothing; a
lowering that is not strict reports exactly what the operators still demand; and a strict lowering
succeeds when the other one does with nothing to report. -/
theorem Reachable.obligations_exact (hg : g.Reachable) :
    (∀ op ∈ g.operators, op.isApplied = true → ∃ os, g.demands op = .ok os ∧
      op.pending = os.filter (Obligation.isOpen op.label g.symbols) ∧
      ∀ o ∈ os, o.check op.label g.symbols = .ok (!o.isOpen op.label g.symbols)) ∧
    g.revalidate = .ok g ∧
    (∀ (config : Config) (p : Program), config.strict = false → g.lower config = .ok p →
      ∃ demands, g.operators.mapM g.demands = .ok demands ∧
        p.preconditions = (g.operators.zip demands).flatMap fun (op, os) =>
          (os.filter (Obligation.isOpen op.label g.symbols)).map fun o =>
            preconditionLine g.symbols (op, o)) ∧
    ∀ (config : Config) (p : Program), g.lower { config with strict := true } = .ok p ↔
      g.lower { config with strict := false } = .ok p ∧ p.preconditions = [] := by
  have hs := hg.settled
  refine ⟨fun op hop _ => ?_, hs.revalidate_eq, fun config p hstrict hp => ?_, fun config p => ?_⟩
  · obtain ⟨os, hos, hten, hpend⟩ := hs op hop
    refine ⟨os, hos, hpend, fun o ho => ?_⟩
    cases hopen : o.isOpen op.label g.symbols with
    | true => exact Obligation.isOpen_iff.1 hopen
    | false => exact (hten o ho).isOpen_eq_false_iff.1 hopen
  · obtain ⟨demands, hdemands, hpend⟩ := hs.pending_eq
    have hlines := (lower_eq_ok.1 hp).1
    rw [hstrict, hs.preconditions_eq] at hlines
    refine ⟨demands, hdemands, ?_⟩
    rw [← Except.ok.inj hlines, hpend, List.map_flatMap]
    simp only [List.map_map, Function.comp_def]
  · rw [lower_eq_ok, lower_eq_ok, hs.preconditions_eq, hs.preconditions_strict_iff]
    constructor
    · rintro ⟨⟨hnil, hlines⟩, hrest⟩
      exact ⟨⟨by rw [hnil, hlines]; rfl, hrest⟩, hlines⟩
    · rintro ⟨⟨hlines, hrest⟩, hnil⟩
      rw [hnil] at hlines
      exact ⟨⟨List.map_eq_nil_iff.1 (Except.ok.inj hlines), hnil⟩, hrest⟩

/-- A graph that scales two channels of unknown number by a vector of four. -/
def unboundScaling : Graph :=
  empty.replay [.addSymbol "C", .addTensor .input "x" .nc [.value 2, .symbol 0],
    .addTensor .weight "s" .c [.value 4], .addOperator none (.axiswiseScale .c), .apply 0 [0, 1],
    .markOutput 2]

/-- While the number of channels is unbound the obligation is carried, and reported. -/
theorem obligations_exact_unboundScaling :
    unboundScaling.pending.length = 1 ∧ unboundScaling.revalidate = .ok unboundScaling ∧
      ∀ p, unboundScaling.lower ⟨16, false, true⟩ = .ok p → p.preconditions ≠ [] := by
  have h := Reachable.obligations_exact (g := unboundScaling) ⟨_, rfl⟩
  refine ⟨by decide, h.2.1, fun p hp hnil => ?_⟩
  have hstrict := (lower_eq_ok.1 ((h.2.2.2 ⟨16, false, true⟩ p).2 ⟨hp, hnil⟩)).1
  rw [hnil] at hstrict
  exact absurd hstrict (by decide)

end Graph

end TensorLowering
