import TensorLowering.Proofs.Graph.Producers
import TensorLowering.Proofs.Schedule.Queue

/-!
# Schedules run operators by depth

The depth of an operator is the length of the longest chain of operators that feed it
(`Graph.depth`, `Graph.Reachable.depth_eq`). Chains end because results get younger along them, not
because of the handles of operators, which say nothing about who feeds whom. Depths count the layers
of what the queue works on (`Graph.Reachable.layered`), so every reachable graph has a schedule, and
it is valid: it runs every applied operator once, after its feeders (`Graph.Reachable.order_valid`),
and by depth (`Graph.Reachable.schedule_by_depth`).
-/

namespace TensorLowering

namespace Graph

variable {g : Graph} {op : Operator} {o : OperatorId}

/-! ## Depth -/

/-- The depth of an operator, where chains of feeders are followed over `n` operators at most. -/
def depthWithin (g : Graph) : Nat → OperatorId → Nat
  | 0, _ => 0
  | n + 1, o =>
    match g.operators[o]? with
    | none => 0
    | some op => (g.feeders op).foldr (fun f d => max (g.depthWithin n f + 1) d) 0

/-- The depth of an operator: zero without feeders, else one more than that of its deepest feeder.
Every operator of a chain has a result of its own, so no chain is longer than the tensors are
many. -/
def depth (g : Graph) (o : OperatorId) : Nat := g.depthWithin g.tensors.length o

/-- Following chains over more operators than there are tensors up to the result changes nothing. -/
theorem Produced.depthWithin_eq (hp : g.Produced) (hg : g.Coherent) {n m : Nat} {a : Application}
    (hop : g.operators[o]? = some op) (ha : op.application = some a) (hn : a.result < n)
    (hm : a.result < m) : g.depthWithin n o = g.depthWithin m o := by
  induction n generalizing m o op a with
  | zero => exact absurd hn (Nat.not_lt_zero _)
  | succ n ih =>
    cases m with
    | zero => exact absurd hm (Nat.not_lt_zero _)
    | succ m =>
      obtain ⟨x, s, y, hatt⟩ := hg.attached op (List.mem_of_getElem? hop) a ha
      simp only [depthWithin, hop]
      refine List.foldr_ext _ _ _ fun f hf d => ?_
      obtain ⟨op', a', hop', ha', hlt⟩ := hp.result_lt ha hatt hf
      have hn' := Nat.lt_of_lt_of_le hlt (Nat.le_of_lt_succ hn)
      have hm' := Nat.lt_of_lt_of_le hlt (Nat.le_of_lt_succ hm)
      rw [ih hop' ha' hn' hm']

/-- The depth of an applied operator, from the depths of its feeders. -/
theorem Reachable.depth_eq (hg : g.Reachable) (hop : g.operators[o]? = some op)
    (happ : op.isApplied = true) :
    g.depth o = (g.feeders op).foldr (fun f d => max (g.depth f + 1) d) 0 := by
  obtain ⟨a, ha⟩ := Option.isSome_iff_exists.1 happ
  obtain ⟨x, s, y, hatt⟩ := hg.coherent.attached op (List.mem_of_getElem? hop) a ha
  have hlen := (List.getElem?_eq_some_iff.1 hatt.result).1
  have hself : g.depth o = g.depthWithin (g.tensors.length + 1) o :=
    hg.produced.depthWithin_eq hg.coherent hop ha hlen (Nat.lt_succ_of_lt hlen)
  rw [hself, depthWithin, hop]
  rfl

/-- What the maximum over feeders is: above all of them, and reached by one. -/
theorem foldr_max_spec (depth : OperatorId → Nat) (feeders : List OperatorId) :
    (∀ f ∈ feeders, depth f < feeders.foldr (fun f d => max (depth f + 1) d) 0) ∧
      (feeders ≠ [] →
        ∃ f ∈ feeders, feeders.foldr (fun f d => max (depth f + 1) d) 0 = depth f + 1) := by
  induction feeders with
  | nil => exact ⟨nofun, fun h => absurd rfl h⟩
  | cons f rest ih =>
    obtain ⟨habove, hreached⟩ := ih
    rw [List.foldr_cons]
    refine ⟨List.forall_mem_cons.2 ⟨by omega, fun f' hf' => ?_⟩, fun _ => ?_⟩
    · have hlt := habove f' hf'
      omega
    · rcases Nat.le_total (rest.foldr (fun f d => max (depth f + 1) d) 0) (depth f + 1) with h | h
      · exact ⟨f, List.mem_cons_self, Nat.max_eq_left h⟩
      · have hne : rest ≠ [] := by
          rintro rfl
          simp at h
        obtain ⟨f', hf', heq⟩ := hreached hne
        exact ⟨f', List.mem_cons_of_mem _ hf', (Nat.max_eq_right h).trans heq⟩

/-! ## What the queue works on -/

/-- The producers of the operands of an operator are its feeders. -/
theorem Coherent.producers_eq (hg : g.Coherent) (hop : op ∈ g.operators) :
    ∃ producers, g.producers op = .ok producers ∧ producers.map Prod.snd = g.feeders op := by
  cases ha : op.application with
  | none =>
    refine ⟨[], ?_, ?_⟩
    · rw [producers, Operator.inputs, ha]
      rfl
    · rw [feeders, Operator.inputs, ha]
      rfl
  | some a =>
    obtain ⟨x, s, y, hatt⟩ := hg.attached op hop a ha
    refine ⟨[x.producer.map (op.kind.dataSlot, ·),
      s.producer.map (op.kind.parameterSlot, ·)].filterMap id, ?_, ?_⟩
    · simp only [producers, Operator.inputs, ha, List.mapM_cons, List.mapM_nil,
        tensor_eq_ok.2 hatt.data, tensor_eq_ok.2 hatt.parameter, Computation.ok_bind]
      rfl
    · rw [feeders_of_attached ha hatt]
      cases x.producer <;> cases s.producer <;> rfl

/-- The queue works on the applied operators and their feeders. -/
theorem Reachable.precedence_eq (hg : g.Reachable) :
    g.precedence = .ok (g.applied.map fun op => (op.id, g.feeders op)) := by
  refine Computation.mapM_eq_ok.2
    (List.forall₂_map_right_iff.2 (List.forall₂_same.2 fun op hop => ?_))
  have hmem := (List.mem_filter.1 hop).1
  obtain ⟨producers, hproducers, hfeeders⟩ := hg.coherent.producers_eq hmem
  rw [hproducers, Computation.ok_bind, ← hfeeders]
  refine Computation.bind_eq_ok.2 ⟨(), Computation.forM_eq_ok.2 fun p hp => ?_, rfl⟩
  have hfeeder : p.2 ∈ g.feeders op := hfeeders ▸ List.mem_map_of_mem hp
  obtain ⟨source, hsource, happ⟩ := hg.feeder_applied hmem hfeeder
  dsimp only
  rw [operator_eq_ok.2 hsource, Computation.ok_bind, happ]
  rfl

/-- The handles of operators are their positions. -/
theorem Coherent.operator_ids (hg : g.Coherent) :
    g.operators.map (·.id) = List.range g.operators.length := by
  refine List.ext_getElem (by simp) fun i hi _ => ?_
  rw [List.length_map] at hi
  simpa using hg.operator_id i _ (List.getElem?_eq_getElem hi)

theorem Coherent.mem_applied (hg : g.Coherent) :
    (∃ op ∈ g.applied, op.id = o) ↔ ∃ op, g.operators[o]? = some op ∧ op.isApplied = true := by
  constructor
  · rintro ⟨op, hop, rfl⟩
    obtain ⟨hmem, happ⟩ := List.mem_filter.1 hop
    exact ⟨op, hg.operator_eq_some hmem, happ⟩
  · rintro ⟨op, hop, happ⟩
    exact ⟨op, List.mem_filter.2 ⟨List.mem_of_getElem? hop, happ⟩, hg.operator_id o op hop⟩

/-- Depths count the layers of what the queue works on. -/
theorem Reachable.layered (hg : g.Reachable) :
    Precedence.Layered (g.applied.map fun op => (op.id, g.feeders op)) g.depth := by
  have hkeys : (g.applied.map fun op => (op.id, g.feeders op)).map Prod.fst =
      g.applied.map (·.id) := by
    rw [List.map_map]
    rfl
  have hdepth : ∀ op ∈ g.applied,
      g.depth op.id = (g.feeders op).foldr (fun f d => max (g.depth f + 1) d) 0 := by
    intro op hop
    obtain ⟨hmem, happ⟩ := List.mem_filter.1 hop
    exact hg.depth_eq (hg.coherent.operator_eq_some hmem) happ
  constructor
  · rw [hkeys]
    refine List.Pairwise.sublist (List.filter_sublist.map _) ?_
    rw [hg.coherent.operator_ids]
    exact List.pairwise_lt_range
  · rw [hkeys]
    intro e he o ho
    obtain ⟨op, hop, rfl⟩ := List.mem_map.1 he
    obtain ⟨source, hsource, hid⟩ :=
      hg.coherent.mem_applied.2 (hg.feeder_applied (List.mem_filter.1 hop).1 ho)
    exact hid ▸ List.mem_map_of_mem hsource
  · intro e he hnone
    obtain ⟨op, hop, rfl⟩ := List.mem_map.1 he
    rw [hdepth op hop, show g.feeders op = [] from hnone, List.foldr_nil]
  · intro e he o ho
    obtain ⟨op, hop, rfl⟩ := List.mem_map.1 he
    rw [hdepth op hop]
    exact (foldr_max_spec g.depth _).1 o ho
  · intro e he hsome
    obtain ⟨op, hop, rfl⟩ := List.mem_map.1 he
    rw [hdepth op hop]
    exact (foldr_max_spec g.depth _).2 hsome

/-! ## Schedules -/

/-- The queue runs every operator, so there is a schedule: what the queue has run. -/
theorem Reachable.schedule_eq (hg : g.Reachable) :
    g.schedule = .ok ⟨Precedence.order (g.applied.map fun op => (op.id, g.feeders op))⟩ := by
  have hlen := hg.layered.order.1.length_eq
  rw [List.length_map] at hlen
  rw [schedule, hg.precedence_eq, Computation.ok_bind]
  exact Computation.ensure_eq_ok.2 ⟨by simpa using hlen, rfl⟩

end Graph

/-- A valid schedule runs every applied operator once and no other, each after the operators that
feed it. -/
structure Schedule.Valid (s : Schedule) (g : Graph) : Prop where
  nodup : s.ordered.Nodup
  mem_iff : ∀ o, o ∈ s.ordered ↔ ∃ op, g.operators[o]? = some op ∧ op.isApplied = true
  fed : ∀ before after o op, s.ordered = before ++ o :: after → g.operators[o]? = some op →
    ∀ f ∈ g.feeders op, f ∈ before

namespace Graph

variable {g : Graph} {op : Operator} {o : OperatorId}

/-- What the queue has run is a valid schedule. -/
theorem Reachable.order_valid (hg : g.Reachable) :
    Schedule.Valid ⟨Precedence.order (g.applied.map fun op => (op.id, g.feeders op))⟩ g := by
  have hp := hg.layered
  obtain ⟨hperm, hsorted, -⟩ := hp.order
  have hmem : ∀ o, o ∈ Precedence.order (g.applied.map fun op => (op.id, g.feeders op)) ↔
      ∃ op, g.operators[o]? = some op ∧ op.isApplied = true := by
    intro o
    rw [hperm.mem_iff, ← hg.coherent.mem_applied]
    simp
  refine ⟨hperm.nodup_iff.2 hp.nodup, hmem, ?_⟩
  intro before after o op hsplit hop f hf
  have ho : o ∈ before ++ o :: after := List.mem_append_right _ List.mem_cons_self
  rw [← hsplit] at ho
  obtain ⟨op', hop', happ⟩ := (hmem o).1 ho
  cases hop.symm.trans hop'
  -- A feeder is scheduled and less deep, so it cannot stand here or later.
  have hlt : g.depth f < g.depth o := by
    rw [hg.depth_eq hop happ]
    exact (foldr_max_spec g.depth _).1 f hf
  have hscheduled := (hmem f).2 (hg.feeder_applied (List.mem_of_getElem? hop) hf)
  dsimp only at hsplit
  rw [hsplit] at hscheduled hsorted
  rcases List.mem_append.1 hscheduled with hbefore | hlate
  · exact hbefore
  · rcases List.mem_cons.1 hlate with rfl | hafter
    · exact absurd hlt (Nat.lt_irrefl _)
    · have hle := (List.pairwise_cons.1 (List.pairwise_append.1 hsorted).2.1).1 f hafter
      exact absurd hlt (Nat.not_lt.2 hle)

/-- Every reachable graph has a schedule. It runs every applied operator once and no other, each
after the operators that feed it, and by depth: zero without feeders, else one more than that of the
deepest feeder. Operators of depth zero run by handle. -/
theorem Reachable.schedule_by_depth (hg : g.Reachable) :
    ∃ s, g.schedule = .ok s ∧ s.ordered.Nodup ∧
      (∀ o, o ∈ s.ordered ↔ ∃ op, g.operators[o]? = some op ∧ op.isApplied = true) ∧
      (∀ before after o op, s.ordered = before ++ o :: after → g.operators[o]? = some op →
        ∀ f ∈ g.feeders op, f ∈ before) ∧
      (∀ o ∈ s.ordered, ∀ op, g.operators[o]? = some op →
        g.depth o = (g.feeders op).foldr (fun f d => max (g.depth f + 1) d) 0) ∧
      s.ordered.Pairwise (fun o o' => g.depth o ≤ g.depth o') ∧
      (s.ordered.filter fun o => g.depth o = 0).Pairwise (· < ·) := by
  have hp := hg.layered
  have hv := hg.order_valid
  obtain ⟨-, hsorted, hsources⟩ := hp.order
  refine ⟨_, hg.schedule_eq, hv.nodup, hv.mem_iff, hv.fed, ?_, hsorted, ?_⟩
  · intro o ho op hop
    obtain ⟨op', hop', happ⟩ := (hv.mem_iff o).1 ho
    cases hop.symm.trans hop'
    exact hg.depth_eq hop happ
  · dsimp only
    rw [hsources]
    exact hp.ascending.sublist (Precedence.sources_sublist _)

/-- Three scalings and one that is never applied. The first to be declared is applied last, to the
result of the second in both slots. -/
def doubledFeeder : Graph :=
  empty.replay [.addTensor .input "x" .c [.value 2], .addOperator none (.axiswiseScale .c),
    .addOperator none (.axiswiseScale .c), .addOperator none (.axiswiseScale .c),
    .addOperator none (.axiswiseScale .c), .apply 1 [0, 0], .apply 0 [1, 1], .apply 2 [0, 0]]

/-- The operator whose operands both come from the second operator is scheduled after it, and the
operator that was not applied is not scheduled. -/
theorem schedule_by_depth_doubledFeeder :
    doubledFeeder.operators[0]?.map doubledFeeder.feeders = some [1, 1] ∧
      ∃ s, doubledFeeder.schedule = .ok s ∧ 3 ∉ s.ordered ∧
        ∃ before after, s.ordered = before ++ 0 :: after ∧ 1 ∈ before := by
  obtain ⟨s, hs, -, hmem, hbefore, -⟩ := Reachable.schedule_by_depth (g := doubledFeeder) ⟨_, rfl⟩
  refine ⟨by decide, s, hs, fun h => ?_, ?_⟩
  · obtain ⟨op, hop, happ⟩ := (hmem 3).1 h
    cases hop
    cases happ
  · obtain ⟨before, after, hsplit⟩ := List.append_of_mem ((hmem 0).2 ⟨_, rfl, rfl⟩)
    exact ⟨before, after, hsplit, hbefore before after 0 _ hsplit rfl 1 (by decide)⟩

end Graph

end TensorLowering
