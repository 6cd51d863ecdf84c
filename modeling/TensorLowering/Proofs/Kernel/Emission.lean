import TensorLowering.Proofs.Graph.Check
import TensorLowering.Proofs.Kernel.Source
import TensorLowering.Proofs.Program

/-!
# The kernels of a program

Operators with different handles have kernels with different entry names, so kernels are emitted for
a list of distinct operators exactly when every one of them has a kernel (`Graph.kernels_eq_ok`):
the check for repeated names never stops an emission. Whatever users call their operators, a program
has one kernel for each operator, in the order of the schedule, called by an identifier of its own,
whose source refers to its own slots (`Graph.Reachable.kernels_exact`).
-/

namespace TensorLowering

namespace Graph

variable {g : Graph} {l : Layout} {ids : List OperatorId} {ks : List Kernel}

/-- The kernel is the one of the operator at a position. -/
def HasKernel (g : Graph) (l : Layout) (i : OperatorId) (k : Kernel) : Prop :=
  ∃ op, g.operator i = .ok op ∧ g.kernel l op = .ok k

/-- A kernel is called by the entry name of its operator. -/
theorem HasKernel.exists_operator {i : OperatorId} {k : Kernel} (h : g.HasKernel l i k) :
    ∃ op, g.operator i = .ok op ∧ g.kernel l op = .ok k ∧
      k.entry = (KernelName.ofOperator op).text := by
  obtain ⟨op, hop, hk⟩ := h
  obtain ⟨_, _, _, _, _, hfrom⟩ := exists_emitsFrom hk
  exact ⟨op, hop, hk, hfrom.entry⟩

/-- Kernels of different operators have different entry names. -/
theorem HasKernel.eq_of_entry {i j : OperatorId} {k k' : Kernel} (hg : g.Coherent)
    (h : g.HasKernel l i k) (h' : g.HasKernel l j k') (heq : k.entry = k'.entry) : i = j := by
  obtain ⟨op, hop, -, hentry⟩ := h.exists_operator
  obtain ⟨op', hop', -, hentry'⟩ := h'.exists_operator
  rw [hentry, hentry'] at heq
  rw [← hg.operator_id i op (operator_eq_ok.1 hop), ← hg.operator_id j op' (operator_eq_ok.1 hop')]
  exact KernelName.id_eq_of_text_eq heq

/-- The entry names of distinct operators are distinct. -/
theorem nodup_entries (hg : g.Coherent) (hids : ids.Nodup)
    (h : List.Forall₂ (g.HasKernel l) ids ks) : (ks.map Kernel.entry).Nodup := by
  induction h with
  | nil => exact .nil
  | cons hk hrest ih =>
    obtain ⟨hfresh, hids⟩ := List.nodup_cons.1 hids
    refine List.nodup_cons.2 ⟨fun hmem => ?_, ih hids⟩
    obtain ⟨k', hk', heq⟩ := List.mem_map.1 hmem
    obtain ⟨j, hj, hkernel⟩ := Computation.exists_item_of_mem hrest hk'
    exact hfresh (hkernel.eq_of_entry hg hk heq ▸ hj)

/-- Kernels are emitted for distinct operators exactly when each of them has a kernel. -/
theorem kernels_eq_ok (hg : g.Coherent) (hids : ids.Nodup) :
    g.kernels l [] ids = .ok ks ↔ List.Forall₂ (g.HasKernel l) ids ks := by
  -- Names are taken by kernels of other operators.
  suffices hall : ∀ taken : List String, (∀ entry ∈ taken, ∀ i ∈ ids, ∀ k, g.HasKernel l i k →
      k.entry ≠ entry) →
      (g.kernels l taken ids = .ok ks ↔ List.Forall₂ (g.HasKernel l) ids ks) from hall [] nofun
  induction ids generalizing ks with
  | nil =>
    intro taken _
    rw [kernels, Computation.pure_eq_ok, List.forall₂_nil_left_iff, eq_comm]
  | cons i rest ih =>
    intro taken htaken
    obtain ⟨hfresh, hids⟩ := List.nodup_cons.1 hids
    have hrest : ∀ {k others}, g.HasKernel l i k →
        (g.kernels l (k.entry :: taken) rest = .ok others ↔
          List.Forall₂ (g.HasKernel l) rest others) := by
      intro k others hk
      refine ih hids _ (List.forall_mem_cons.2 ⟨fun j hj k' hk' heq => ?_, ?_⟩)
      · exact hfresh (hk'.eq_of_entry hg hk heq ▸ hj)
      · exact fun entry hentry j hj => htaken entry hentry j (List.mem_cons_of_mem _ hj)
    simp only [kernels, Computation.bind_eq_ok, Computation.guard_eq_ok, Computation.pure_eq_ok]
    constructor
    · rintro ⟨op, hop, k, hk, -, others, hothers, rfl⟩
      exact .cons ⟨op, hop, hk⟩ ((hrest ⟨op, hop, hk⟩).1 hothers)
    · intro h
      cases h with
      | @cons _ k _ others hk hothers =>
        obtain ⟨op, hop, hkernel⟩ := hk
        refine ⟨op, hop, k, hkernel, ?_, others, (hrest ⟨op, hop, hkernel⟩).2 hothers, rfl⟩
        intro hmem
        exact htaken k.entry (by simpa using hmem) i List.mem_cons_self k ⟨op, hop, hkernel⟩ rfl

/-- The kernels of a program are those of the operators in the order of the schedule. -/
theorem Reachable.hasKernels (hg : g.Reachable) {config : Config} {p : Program}
    (h : g.lower config = .ok p) : ∃ s, g.schedule = .ok s ∧ g.Checked s ∧
      List.Forall₂ (g.HasKernel p.layout) s.ordered p.kernels := by
  obtain ⟨-, s, hcheck, hs, -, -, hkernels, -, -⟩ := lower_eq_ok.1 h
  have hchecked := hg.checked_of_check hcheck hs
  exact ⟨s, hs, hchecked, (kernels_eq_ok hg.coherent hchecked.nodup).1 hkernels⟩

/-- Every operator has its kernel in the program. -/
theorem Reachable.exists_kernel (hg : g.Reachable) {config : Config} {p : Program}
    (h : g.lower config = .ok p) {op : Operator} (hop : op ∈ g.operators) :
    ∃ k ∈ p.kernels, g.kernel p.layout op = .ok k := by
  obtain ⟨s, -, hchecked, hall⟩ := hg.hasKernels h
  have hat := hg.coherent.operator_eq_some hop
  have hmem := hchecked.complete op.id (List.getElem?_eq_some_iff.1 hat).1
  obtain ⟨k, hk, op', hop', hkernel⟩ := Computation.exists_result_of_mem hall hmem
  cases hat.symm.trans (operator_eq_ok.1 hop')
  exact ⟨k, hk, hkernel⟩

/-- A program has exactly one kernel for each operator, in the order of the schedule. Entry names
are distinct identifiers, whatever texts users have called the operators. The source of a kernel has
no two percent signs side by side, so no template token, and refers to a slot of the metadata buffer
exactly if the kernel has that slot. -/
theorem Reachable.kernels_exact (hg : g.Reachable) {config : Config} {p : Program}
    (h : g.lower config = .ok p) :
    (∃ s, g.schedule = .ok s ∧ s.ordered.Perm (g.operators.map (·.id)) ∧
      List.Forall₂ (fun i k => ∃ op, g.operator i = .ok op ∧ g.kernel p.layout op = .ok k ∧
        k.entry = (KernelName.ofOperator op).text) s.ordered p.kernels) ∧
      (p.kernels.map Kernel.entry).Nodup ∧
      ∀ k ∈ p.kernels, IsIdentifier k.entry ∧ ¬ "%%".toList <:+: k.source.toList ∧
        ∀ i, RefersTo k.source i ↔ i < k.slots.length := by
  obtain ⟨s, hs, hchecked, hall⟩ := hg.hasKernels h
  refine ⟨⟨s, hs, ?_, hall.imp fun _ _ hk => hk.exists_operator⟩,
    nodup_entries hg.coherent hchecked.nodup hall, ?_⟩
  · rw [hg.coherent.operator_ids]
    refine (List.perm_ext_iff_of_nodup hchecked.nodup List.nodup_range).2 fun o => ?_
    rw [List.mem_range]
    refine ⟨fun ho => ?_, hchecked.complete o⟩
    obtain ⟨k, -, op, hop, -⟩ := Computation.exists_result_of_mem hall ho
    exact (List.getElem?_eq_some_iff.1 (operator_eq_ok.1 hop)).1
  · intro k hk
    obtain ⟨i, -, hkernel⟩ := Computation.exists_item_of_mem hall hk
    obtain ⟨op, -, hkernel, hentry⟩ := hkernel.exists_operator
    refine ⟨?_, (clear_tokens_kernel hkernel).absent (by decide), refersTo_kernel hkernel⟩
    rw [hentry]
    exact KernelName.isIdentifier_ofOperator op

/-- Two scalings of rows of unknown number, one without a name and one with a name of signs. -/
def oddlyNamed : Graph :=
  empty.replay [.addSymbol "N", .addTensor .input "x" .nc [.symbol 0, .value 2],
    .addTensor .weight "s" .c [.value 2], .addOperator (some "") (.axiswiseScale .c),
    .addOperator (some "%%λ_") (.axiswiseScale .c), .apply 0 [0, 1], .apply 1 [2, 1],
    .markOutput 3]

/-- The result of the first is placed by one slot and counted by another; the second also finds its
operand by a slot. -/
theorem kernels_exact_oddlyNamed :
    ∃ p, oddlyNamed.lower ⟨16, false, true⟩ = .ok p ∧ (p.kernels.map Kernel.entry).Nodup ∧
      p.kernels.map (fun k => k.slots.length) = [2, 3] ∧
      ∀ k ∈ p.kernels, IsIdentifier k.entry ∧ RefersTo k.source 1 ∧ ¬ RefersTo k.source 3 := by
  have hslots : (oddlyNamed.lower ⟨16, false, true⟩).map
      (fun p => p.kernels.map fun k => k.slots.length) = .ok [2, 3] := by decide +kernel
  obtain ⟨p, hp, hlengths⟩ := Computation.map_eq_ok.1 hslots
  obtain ⟨-, hnodup, hkernels⟩ := Reachable.kernels_exact ⟨_, rfl⟩ hp
  refine ⟨p, hp, hnodup, hlengths, fun k hk => ?_⟩
  obtain ⟨hentry, -, hrefers⟩ := hkernels k hk
  have hlength : k.slots.length ∈ [2, 3] := hlengths ▸ List.mem_map_of_mem hk
  simp only [List.mem_cons, List.not_mem_nil, or_false] at hlength
  refine ⟨hentry, (hrefers 1).2 (by omega), fun h => ?_⟩
  have hlt := (hrefers 3).1 h
  omega

end Graph

end TensorLowering
