import TensorLowering.Proofs.Schedule.Depth
import TensorLowering.Schedule.Check

/-!
# What the check of a schedule accepts

The check follows the list step by step (`Graph.checkSteps_cons`): every step is an operator that is
not repeated and comes after its feeders (`Graph.Ordered`, `Graph.Coherent.checkSteps_eq_ok`). That
the list is complete it only counts, and it counts against the applied operators while an operator
without operands passes every step. So the check accepts all valid schedules and, beside them, lists
in which operators that were never applied make up for applied ones
(`Graph.Reachable.checkSchedule_iff`, `Graph.checkSchedule_idleBeside`).
-/

namespace TensorLowering

namespace Graph

variable {g : Graph} {op : Operator} {o : OperatorId} {ran ran' rest steps : List OperatorId}
  {s : Schedule}

/-! ## Step by step -/

/-- The steps can run in this order after those that have run: every step is an operator, stands
once, and stands after its feeders. -/
structure Ordered (g : Graph) (ran steps : List OperatorId) : Prop where
  nodup : steps.Nodup
  fresh : ∀ o ∈ steps, o ∉ ran
  fed : ∀ before o after, steps = before ++ o :: after →
    ∃ op, g.operators[o]? = some op ∧ ∀ f ∈ g.feeders op, f ∈ before ∨ f ∈ ran

/-- The order of a list of steps, from its first step and the rest. -/
theorem ordered_cons :
    g.Ordered ran (o :: rest) ↔ (∃ op, g.operators[o]? = some op ∧ ∀ f ∈ g.feeders op, f ∈ ran) ∧
      o ∉ ran ∧ g.Ordered (o :: ran) rest := by
  constructor
  · rintro ⟨hnodup, hfresh, hfed⟩
    obtain ⟨hself, hnodup⟩ := List.nodup_cons.1 hnodup
    refine ⟨?_, hfresh o List.mem_cons_self, hnodup, fun o' ho' => ?_, fun before o' after h => ?_⟩
    · simpa using hfed [] o rest rfl
    · have hne : o' ≠ o := fun heq => hself (heq ▸ ho')
      simpa [hne] using hfresh o' (List.mem_cons_of_mem _ ho')
    · obtain ⟨op, hop, hfeeders⟩ := hfed (o :: before) o' after (by rw [h, List.cons_append])
      refine ⟨op, hop, fun f hf => ?_⟩
      simpa [or_assoc, or_left_comm] using hfeeders f hf
  · rintro ⟨hfirst, hfresh, hnodup, hrest, hfed⟩
    refine ⟨List.nodup_cons.2 ⟨fun ho => hrest o ho List.mem_cons_self, hnodup⟩,
      List.forall_mem_cons.2 ⟨hfresh, fun o' ho' hran => ?_⟩, fun before o' after h => ?_⟩
    · exact hrest o' ho' (List.mem_cons_of_mem _ hran)
    · rcases List.cons_eq_append_iff.1 h with ⟨rfl, h⟩ | ⟨before, rfl, h⟩
      · cases h
        simpa using hfirst
      · obtain ⟨op, hop, hfeeders⟩ := hfed before o' after (List.cons.inj h).2
        refine ⟨op, hop, fun f hf => ?_⟩
        simpa [or_assoc, or_left_comm] using hfeeders f hf

/-- No operand comes late when all producers have run. -/
theorem lateSlot?_eq_none {producers : List (String × OperatorId)} :
    lateSlot? ran producers = none ↔ ∀ f ∈ producers.map Prod.snd, f ∈ ran := by
  rw [lateSlot?, List.find?_eq_none, List.forall_mem_map]
  simp

/-- One step of the check: the operator is there, its feeders have run, and it has not. -/
theorem Coherent.checkSteps_cons (hg : g.Coherent) :
    g.checkSteps ran (o :: rest) = .ok ran' ↔
      (∃ op, g.operators[o]? = some op ∧ ∀ f ∈ g.feeders op, f ∈ ran) ∧ o ∉ ran ∧
        g.checkSteps (o :: ran) rest = .ok ran' := by
  rw [checkSteps]
  simp only [Computation.bind_eq_ok, operator_eq_ok]
  constructor
  · rintro ⟨op, hop, producers, hproducers, h⟩
    obtain ⟨producers', hproducers', hfeeders⟩ := hg.producers_eq (List.mem_of_getElem? hop)
    cases hproducers.symm.trans hproducers'
    cases hlate : lateSlot? ran producers with
    | some late =>
      rw [hlate] at h
      cases h
    | none =>
      rw [hlate] at h
      obtain ⟨hfresh, h⟩ := Computation.guard_eq_ok.1 h
      exact ⟨⟨op, hop, hfeeders ▸ lateSlot?_eq_none.1 hlate⟩, by simpa using hfresh, h⟩
  · rintro ⟨⟨op, hop, hran⟩, hfresh, h⟩
    obtain ⟨producers, hproducers, hfeeders⟩ := hg.producers_eq (List.mem_of_getElem? hop)
    refine ⟨op, hop, producers, hproducers, ?_⟩
    rw [lateSlot?_eq_none.2 (hfeeders ▸ hran)]
    exact Computation.guard_eq_ok.2 ⟨by simpa using hfresh, h⟩

/-- The check goes through all steps just when they can run in their order. -/
theorem Coherent.checkSteps_eq_ok (hg : g.Coherent) :
    g.checkSteps ran steps = .ok ran' ↔ g.Ordered ran steps ∧ steps.reverse ++ ran = ran' := by
  induction steps generalizing ran with
  | nil =>
    have hnil : g.Ordered ran [] := ⟨.nil, nofun, fun before o after h => by simp at h⟩
    simp [checkSteps, Computation.pure_eq_ok, hnil]
  | cons o rest ih =>
    rw [hg.checkSteps_cons, ordered_cons, ih]
    simp [and_assoc]

/-- A schedule is accepted when its steps can run and are as many as there are applied
operators. -/
theorem Coherent.checkSchedule_eq_ok (hg : g.Coherent) :
    g.checkSchedule s = .ok () ↔
      g.Ordered [] s.ordered ∧ s.ordered.length = g.applied.length := by
  simp only [checkSchedule, Computation.bind_eq_ok, hg.checkSteps_eq_ok]
  constructor
  · rintro ⟨ran, ⟨hordered, rfl⟩, h⟩
    exact ⟨hordered, by simpa using (Computation.ensure_eq_ok.1 h).1⟩
  · rintro ⟨hordered, hlen⟩
    exact ⟨_, ⟨hordered, rfl⟩, Computation.ensure_eq_ok.2 ⟨by simpa using hlen, rfl⟩⟩

/-! ## Valid schedules -/

/-- The handles of the applied operators. -/
theorem Coherent.mem_applied_ids (hg : g.Coherent) :
    o ∈ g.applied.map (·.id) ↔ ∃ op, g.operators[o]? = some op ∧ op.isApplied = true := by
  rw [List.mem_map, hg.mem_applied]

theorem Coherent.nodup_applied_ids (hg : g.Coherent) : (g.applied.map (·.id)).Nodup := by
  refine List.Nodup.sublist (List.filter_sublist.map _) ?_
  rw [hg.operator_ids]
  exact List.nodup_range

/-- A schedule is valid when its steps can run, are applied operators, and are as many as there are
applied operators. -/
theorem Coherent.valid_iff (hg : g.Coherent) :
    s.Valid g ↔ (g.Ordered [] s.ordered ∧ s.ordered.length = g.applied.length) ∧
      ∀ o ∈ s.ordered, ∃ op, g.operators[o]? = some op ∧ op.isApplied = true := by
  constructor
  · rintro ⟨hnodup, hmem, hfed⟩
    have hperm : s.ordered.Perm (g.applied.map (·.id)) :=
      (List.perm_ext_iff_of_nodup hnodup hg.nodup_applied_ids).2 fun o =>
        (hmem o).trans hg.mem_applied_ids.symm
    refine ⟨⟨⟨hnodup, by simp, fun before o after h => ?_⟩, by simpa using hperm.length_eq⟩,
      fun o ho => (hmem o).1 ho⟩
    obtain ⟨op, hop, -⟩ := (hmem o).1 (by simp [h])
    exact ⟨op, hop, fun f hf => .inl (hfed before after o op h hop f hf)⟩
  · rintro ⟨⟨⟨hnodup, -, hfed⟩, hlen⟩, happlied⟩
    -- As many different applied operators as there are are all of them.
    have hsubset : s.ordered ⊆ g.applied.map (·.id) :=
      fun o ho => hg.mem_applied_ids.2 (happlied o ho)
    have hperm := (List.subperm_of_subset hnodup hsubset).perm_of_length_le (by simp [hlen])
    refine ⟨hnodup, fun o => hperm.mem_iff.trans hg.mem_applied_ids, ?_⟩
    intro before after o op h hop f hf
    obtain ⟨op', hop', hfeeders⟩ := hfed before o after h
    cases hop.symm.trans hop'
    simpa using hfeeders f hf

/-- The check of a schedule finds everything that keeps a list from being valid, except operators
that were never applied. It accepts the lists of as many operators as have been applied in which no
operator is repeated and every operator comes after its feeders, and the valid schedules are those
among them that hold applied operators only. -/
theorem Reachable.checkSchedule_iff (hg : g.Reachable) :
    (g.checkSchedule s = .ok () ↔
      g.Ordered [] s.ordered ∧ s.ordered.length = g.applied.length) ∧
    (s.Valid g ↔ g.checkSchedule s = .ok () ∧
      ∀ o ∈ s.ordered, ∃ op, g.operators[o]? = some op ∧ op.isApplied = true) := by
  rw [hg.coherent.checkSchedule_eq_ok]
  exact ⟨.rfl, hg.coherent.valid_iff⟩

/-- The operator that feeds another runs before it, although it was declared later. -/
theorem checkSchedule_iff_doubledFeeder :
    doubledFeeder.Reachable ∧ Schedule.Valid ⟨[2, 1, 0]⟩ doubledFeeder ∧
      ¬ Schedule.Valid ⟨[0, 1, 2]⟩ doubledFeeder := by
  have hg : doubledFeeder.Reachable := ⟨_, rfl⟩
  refine ⟨hg, (Reachable.checkSchedule_iff hg).2.2 ⟨rfl, by decide⟩, fun hv => ?_⟩
  have hcheck := ((Reachable.checkSchedule_iff hg).2.1 hv).1
  cases hcheck

/-- A scaling that has been applied and one that has not. -/
def idleBeside : Graph :=
  empty.replay [.addTensor .input "x" .nc [.value 2, .value 3],
    .addTensor .weight "s" .c [.value 3], .addOperator none (.axiswiseScale .c),
    .addOperator none (.axiswiseScale .c), .apply 0 [0, 1]]

/-- The schedule that runs the operator that was never applied, and not the one that was, is
accepted. -/
theorem checkSchedule_idleBeside :
    idleBeside.Reachable ∧ idleBeside.checkSchedule ⟨[1]⟩ = .ok () ∧
      ¬ Schedule.Valid ⟨[1]⟩ idleBeside := by
  refine ⟨⟨_, rfl⟩, rfl, fun hv => ?_⟩
  obtain ⟨op, hop, happ⟩ := (hv.mem_iff 1).1 List.mem_cons_self
  cases hop
  cases happ

end Graph

end TensorLowering
