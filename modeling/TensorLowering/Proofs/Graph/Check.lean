import TensorLowering.Graph.Check
import TensorLowering.Proofs.Graph.Consumers
import TensorLowering.Proofs.Graph.Narrowing
import TensorLowering.Proofs.Schedule.Check

/-!
# What the check of a graph finds

Construction keeps both ends of every edge (`Graph.Linked`, `Graph.Reachable.linked`) and never
closes a cycle, so of all that the check of a graph looks at only two things can be wrong: a tensor
that nothing computes, and an operator that was never applied (`Graph.Linked.checkTensor_eq`,
`Graph.Linked.checkOperator_eq`, `Graph.Reachable.check_exact`). In a graph that passes, the host
supplies the tensors without a producer, every other tensor is the result of an operator, and the
schedule runs every operator once (`Graph.Checked`, `Graph.Reachable.checked_of_check`).
-/

namespace TensorLowering

namespace Graph

variable {g : Graph} {s : Schedule} {op : Operator} {a : Application} {x : Tensor} {i : TensorId}
  {o : OperatorId}

/-! ## Links -/

/-- Handles are positions, only computed tensors have a producer, and every edge between a tensor
and an operator is known at both ends, once. -/
structure Linked (g : Graph) : Prop where
  tensor_id : ∀ (i : TensorId) (x : Tensor), g.tensors[i]? = some x → x.id = i
  operator_id : ∀ (i : OperatorId) (op : Operator), g.operators[i]? = some op → op.id = i
  supplied : ∀ x ∈ g.tensors, x.role = .input ∨ x.role = .weight → x.producer = none
  produces : ∀ x ∈ g.tensors, ∀ o, x.producer = some o ↔
    ∃ op a, g.operators[o]? = some op ∧ op.application = some a ∧ a.result = x.id
  reads : ∀ x ∈ g.tensors, ∀ o, o ∈ x.consumers ↔ g.Reads o x.id
  nodup : ∀ x ∈ g.tensors, x.consumers.Nodup
  known : ∀ op ∈ g.operators, ∀ a, op.application = some a →
    ∀ i ∈ [a.data, a.parameter, a.result], ∃ x, g.tensors[i]? = some x

/-- Construction links nodes at both ends. -/
theorem Reachable.linked (hg : g.Reachable) : g.Linked := by
  have hc := hg.coherent
  have hat : ∀ x ∈ g.tensors, g.tensors[x.id]? = some x := fun x => hc.tensor_eq_some
  have hattached : ∀ o op a, g.operators[o]? = some op → op.application = some a →
      op.id = o ∧ ∃ x s y, g.Attached op a x s y := fun o op a hop ha =>
    ⟨hc.operator_id o op hop, hc.attached op (List.mem_of_getElem? hop) a ha⟩
  refine ⟨hc.tensor_id, hc.operator_id, fun x hx hrole => ?_, fun x hx o => ⟨fun ho => ?_, ?_⟩,
    fun x hx o => ⟨(hg.consumed x.id x (hat x hx)).2 o, ?_⟩,
    fun x hx => (hg.consumed x.id x (hat x hx)).1, fun op hop a ha => ?_⟩
  · cases ho : x.producer with
    | none => rfl
    | some o =>
      obtain ⟨hcomputed, -⟩ := hg.produced x.id x o (hat x hx) ho
      rcases hrole with hrole | hrole <;> simp [hrole] at hcomputed
  · exact (hg.produced x.id x o (hat x hx) ho).2
  · rintro ⟨op, a, hop, ha, hresult⟩
    obtain ⟨rfl, x', s', y, hatt⟩ := hattached o op a hop ha
    have hy := hatt.result
    rw [hresult, hat x hx] at hy
    cases hy
    exact hatt.producer
  · rintro ⟨op, a, hop, ha, hi⟩
    obtain ⟨rfl, x', s', y, hatt⟩ := hattached o op a hop ha
    rcases hi with hi | hi
    · have hx' := hatt.data
      rw [hi, hat x hx] at hx'
      cases hx'
      exact hatt.data_consumers
    · have hs' := hatt.parameter
      rw [hi, hat x hx] at hs'
      cases hs'
      exact hatt.parameter_consumers
  · obtain ⟨x, s, y, hatt⟩ := hc.attached op hop a ha
    simp [hatt.data, hatt.parameter, hatt.result]

/-! ## Single checks -/

/-- The check of a producer edge only looks whether it is there when the tensor is computed. -/
theorem Linked.checkProducer_eq (hl : g.Linked) (hx : x ∈ g.tensors) :
    g.checkProducer x = if x.producer = none ∧ (x.role = .intermediate ∨ x.role = .output) then
      .error (.invalidGraph (.noProducer x.name)) else .ok () := by
  have hresult : ∀ o, x.producer = some o → (do
      let op ← g.operator o
      if !op.outputs.any (·.2 == x.id) then
        throw (.invalidGraph (.notAmongOutputs x.name op.label)) : Lowering Unit) = .ok () := by
    intro o ho
    obtain ⟨op, a, hop, ha, hresult⟩ := (hl.produces x hx o).1 ho
    rw [operator_eq_ok.2 hop, Computation.ok_bind]
    exact Computation.ensure_eq_ok.2 ⟨by simp [Operator.outputs, ha, hresult], rfl⟩
  have hsupplied := hl.supplied x hx
  unfold checkProducer
  split
  · next hrole ho => simp [hrole, ho] at hsupplied
  · next hrole ho => simp [hrole, ho] at hsupplied
  · next hrole ho => simp [hrole, ho, throw, throwThe, MonadExceptOf.throw]
  · next hrole ho => simp [hrole, ho, throw, throwThe, MonadExceptOf.throw]
  · next hrole ho => simp [hrole, pure, Except.pure]
  · next hrole ho => simp [hrole, pure, Except.pure]
  · next o hrole ho => rw [hresult o ho, if_neg (by simp [ho])]
  · next o hrole ho => rw [hresult o ho, if_neg (by simp [ho])]

/-- The check of consumer edges goes through when all operators read the tensor and none is
repeated. -/
theorem checkConsumers_eq_ok {seen consumers : List OperatorId} (hnodup : consumers.Nodup)
    (hseen : ∀ o ∈ consumers, o ∉ seen) (hreads : ∀ o ∈ consumers, g.Reads o x.id) :
    g.checkConsumers x seen consumers = .ok () := by
  induction consumers generalizing seen with
  | nil => rfl
  | cons o rest ih =>
    obtain ⟨hself, hnodup⟩ := List.nodup_cons.1 hnodup
    obtain ⟨hfresh, hseen⟩ := List.forall_mem_cons.1 hseen
    obtain ⟨⟨op, a, hop, ha, hi⟩, hreads⟩ := List.forall_mem_cons.1 hreads
    have hinput : op.inputs.any (·.2 == x.id) = true := by
      rcases hi with hi | hi <;> simp [Operator.inputs, ha, hi]
    rw [checkConsumers]
    refine Computation.guard_eq_ok.2 ⟨by simpa using hfresh, ?_⟩
    rw [operator_eq_ok.2 hop, Computation.ok_bind]
    refine Computation.guard_eq_ok.2 ⟨by simp [hinput], ih hnodup ?_ hreads⟩
    intro o' ho' hmem
    rcases List.mem_cons.1 hmem with rfl | hmem
    · exact hself ho'
    · exact hseen o' ho' hmem

/-- Of a tensor, the check finds only that nothing computes it. -/
theorem Linked.checkTensor_eq (hl : g.Linked) (hx : g.tensors[i]? = some x) :
    g.checkTensor x i = if x.producer = none ∧ (x.role = .intermediate ∨ x.role = .output) then
      .error (.invalidGraph (.noProducer x.name)) else .ok () := by
  have hmem := List.mem_of_getElem? hx
  have hconsumers : g.checkConsumers x [] x.consumers = .ok () :=
    checkConsumers_eq_ok (hl.nodup x hmem) (by simp) fun o => (hl.reads x hmem o).1
  rw [checkTensor, if_neg (not_not_intro (hl.tensor_id i x hx)), hl.checkProducer_eq hmem]
  split
  · rfl
  · exact hconsumers

/-- Of an operator, the check finds only that it was never applied. -/
theorem Linked.checkOperator_eq (hl : g.Linked) (hop : op ∈ g.operators) :
    g.checkOperator op = if op.isApplied then .ok () else
      .error (.invalidGraph (.neverApplied op.label)) := by
  rw [checkOperator]
  cases happ : op.isApplied with
  | false => rfl
  | true =>
    refine Computation.guard_eq_ok.2 ⟨by simp, Computation.forM_eq_ok.2 fun p hp => ?_⟩
    obtain ⟨a, ha⟩ := Option.isSome_iff_exists.1 happ
    have hinput : a.data = p.2 ∨ a.parameter = p.2 := by
      simp only [Operator.inputs, ha, List.mem_cons, List.not_mem_nil, or_false] at hp
      rcases hp with rfl | rfl <;> simp
    obtain ⟨n, hn⟩ := List.getElem?_of_mem hop
    obtain ⟨x, hx⟩ := hl.known op hop a ha p.2 (by rcases hinput with h | h <;> simp [h])
    have hreads : g.Reads op.id x.id := by
      rw [hl.tensor_id _ _ hx, hl.operator_id _ _ hn]
      exact ⟨op, a, hn, ha, hinput⟩
    have hmem := (hl.reads x (List.mem_of_getElem? hx) op.id).2 hreads
    dsimp only
    rw [tensor_eq_ok.2 hx, Computation.ok_bind]
    exact Computation.ensure_eq_ok.2 ⟨by simpa using hmem, rfl⟩

/-- The schedule of a reachable graph is valid, and accepted. -/
theorem Reachable.schedule_accepted (hg : g.Reachable) :
    ∃ s, g.schedule = .ok s ∧ g.checkSchedule s = .ok () ∧ s.Valid g :=
  ⟨_, hg.schedule_eq, hg.coherent.checkSchedule_eq_ok.2 (hg.coherent.valid_iff.1 hg.order_valid).1,
    hg.order_valid⟩

/-! ## The whole check -/

/-- A reachable graph fails its check only for a tensor that nothing computes or an operator that was
never applied. -/
theorem Reachable.check_eq_error (hg : g.Reachable) {e : LoweringError} (h : g.check = .error e) :
    (∃ x ∈ g.tensors, (x.role = .intermediate ∨ x.role = .output) ∧ x.producer = none ∧
        e = .invalidGraph (.noProducer x.name)) ∨
      ∃ op ∈ g.operators, op.isApplied = false ∧ e = .invalidGraph (.neverApplied op.label) := by
  have hl := hg.linked
  rcases Computation.bind_eq_error.1 h with h | ⟨_, -, h⟩
  · obtain ⟨⟨x, i⟩, hp, hfail⟩ := Computation.exists_of_forM_eq_error h
    have hx : g.tensors[i]? = some x := by simpa [List.mem_zipIdx_iff_getElem?] using hp
    dsimp only at hfail
    rw [hl.checkTensor_eq hx] at hfail
    split at hfail
    · next hnone =>
      cases hfail
      exact .inl ⟨x, List.mem_of_getElem? hx, hnone.2, hnone.1, rfl⟩
    · cases hfail
  · rcases Computation.bind_eq_error.1 h with h | ⟨_, -, h⟩
    · obtain ⟨op, hop, hfail⟩ := Computation.exists_of_forM_eq_error h
      rw [hl.checkOperator_eq hop] at hfail
      split at hfail
      · cases hfail
      · next happ =>
        cases hfail
        exact .inr ⟨op, hop, by simpa using happ, rfl⟩
    · obtain ⟨s, hs, haccepted, -⟩ := hg.schedule_accepted
      rw [hs, Computation.ok_bind, haccepted] at h
      cases h

/-- In a reachable graph that passes its check, all operators have been applied and every tensor
that is not supplied has a producer. -/
theorem Reachable.of_check_eq_ok (hg : g.Reachable) (h : g.check = .ok ()) :
    (∀ op ∈ g.operators, op.isApplied = true) ∧
      ∀ x ∈ g.tensors, x.role = .intermediate ∨ x.role = .output → ∃ o, x.producer = some o := by
  have hl := hg.linked
  obtain ⟨_, htensors, h⟩ := Computation.bind_eq_ok.1 h
  obtain ⟨_, hoperators, -⟩ := Computation.bind_eq_ok.1 h
  refine ⟨fun op hop => ?_, fun x hx hrole => ?_⟩
  · have hpass := Computation.forM_eq_ok.1 hoperators op hop
    rw [hl.checkOperator_eq hop] at hpass
    split at hpass
    · assumption
    · cases hpass
  · obtain ⟨i, hi⟩ := List.getElem?_of_mem hx
    have hmem : (x, i) ∈ g.tensors.zipIdx := by simpa [List.mem_zipIdx_iff_getElem?] using hi
    have hpass := Computation.forM_eq_ok.1 htensors _ hmem
    dsimp only at hpass
    rw [hl.checkTensor_eq hi] at hpass
    cases ho : x.producer with
    | none => simp [ho, hrole] at hpass
    | some o => exact ⟨o, rfl⟩

/-- A reachable graph passes its check just when every operator has been applied and every tensor
that is not supplied has a producer. All else that the check looks at holds of every reachable
graph: handles are positions, inputs and weights have no producer, edges are known at both ends and
listed once, and the graph has a schedule, which is valid and accepted. So the check never fails for
another reason. -/
theorem Reachable.check_exact (hg : g.Reachable) :
    (g.check = .ok () ↔ (∀ op ∈ g.operators, op.isApplied = true) ∧
      ∀ x ∈ g.tensors, x.role = .intermediate ∨ x.role = .output → ∃ o, x.producer = some o) ∧
    (∀ e, g.check = .error e →
      (∃ x ∈ g.tensors, (x.role = .intermediate ∨ x.role = .output) ∧ x.producer = none ∧
        e = .invalidGraph (.noProducer x.name)) ∨
      ∃ op ∈ g.operators, op.isApplied = false ∧ e = .invalidGraph (.neverApplied op.label)) ∧
    g.Linked ∧ ∃ s, g.schedule = .ok s ∧ g.checkSchedule s = .ok () ∧ s.Valid g := by
  refine ⟨⟨hg.of_check_eq_ok, ?_⟩, fun e => hg.check_eq_error, hg.linked, hg.schedule_accepted⟩
  rintro ⟨happlied, hproduced⟩
  cases h : g.check with
  | ok => rfl
  | error e =>
    rcases hg.check_eq_error h with ⟨x, hx, hrole, hnone, -⟩ | ⟨op, hop, hfalse, -⟩
    · obtain ⟨o, ho⟩ := hproduced x hx hrole
      simp [hnone] at ho
    · simp [happlied op hop] at hfalse

/-- A graph with repeated operands is linked, and fails its check for the operator that was not
applied. -/
theorem check_exact_doubledFeeder :
    doubledFeeder.Reachable ∧ doubledFeeder.Linked ∧ doubledFeeder.check ≠ .ok () := by
  have hg : doubledFeeder.Reachable := ⟨_, rfl⟩
  obtain ⟨hpass, -, hlinked, -⟩ := Reachable.check_exact hg
  refine ⟨hg, hlinked, fun h => ?_⟩
  have happ := (hpass.1 h).1 _ (List.mem_of_getElem? (i := 3) rfl)
  cases happ

/-! ## Checked graphs -/

/-- What the check of a graph establishes about its tensors and its schedule. -/
structure Checked (g : Graph) (s : Schedule) : Prop where
  supplied : ∀ x ∈ g.tensors, x.role = .input ∨ x.role = .weight → x.producer = none
  produced : ∀ x ∈ g.tensors, x.role = .intermediate ∨ x.role = .output →
    ∃ o op a, x.producer = some o ∧ g.operators[o]? = some op ∧ op.application = some a ∧
      a.result = x.id
  nodup : s.ordered.Nodup
  complete : ∀ o < g.operators.length, o ∈ s.ordered

/-- An operator of the schedule does not stand before itself. -/
theorem Checked.fresh (hc : g.Checked s) {o : OperatorId} {done rest : List OperatorId}
    (hs : s.ordered = done ++ o :: rest) : o ∉ done := by
  have hnodup := hc.nodup
  rw [hs] at hnodup
  exact fun hmem => (List.nodup_append.1 hnodup).2.2 _ hmem _ List.mem_cons_self rfl

/-- Every tensor is supplied by the host or produced by an operator of the schedule. -/
theorem Checked.supplied_or_produced (hc : g.Checked s) {x : Tensor} (hx : x ∈ g.tensors) :
    x.role = .input ∨ x.role = .weight ∨ ∃ o ∈ s.ordered, x.producer = some o := by
  have hproduced : x.role = .intermediate ∨ x.role = .output →
      ∃ o ∈ s.ordered, x.producer = some o := by
    intro hrole
    obtain ⟨o, op, -, ho, hop, -, -⟩ := hc.produced x hx hrole
    have hlt := (List.getElem?_eq_some_iff.1 hop).1
    exact ⟨o, hc.complete o hlt, ho⟩
  cases hrole : x.role with
  | input => exact .inl rfl
  | weight => exact .inr (.inl rfl)
  | output => exact .inr (.inr (hproduced (.inr hrole)))
  | intermediate => exact .inr (.inr (hproduced (.inl hrole)))

/-- In a checked graph every producer edge belongs to an application. -/
theorem Checked.edges (hc : g.Checked s) (hg : g.Coherent) : g.Produced := by
  intro i x o hx ho
  have hmem := List.mem_of_getElem? hx
  have hrole : x.role = .intermediate ∨ x.role = .output := by
    cases hrole : x.role with
    | input => simp [hc.supplied x hmem (.inl hrole)] at ho
    | weight => simp [hc.supplied x hmem (.inr hrole)] at ho
    | output => exact .inr rfl
    | intermediate => exact .inl rfl
  obtain ⟨o', op, a, ho', hop, ha, hresult⟩ := hc.produced x hmem hrole
  rw [ho] at ho'
  cases ho'
  exact ⟨hrole, op, a, hop, ha, hresult.trans (hg.tensor_id i x hx)⟩

/-- A reachable graph that passes its check is checked, with its schedule. -/
theorem Reachable.checked_of_check (hg : g.Reachable) (hcheck : g.check = .ok ())
    (hs : g.schedule = .ok s) : g.Checked s := by
  obtain ⟨happlied, hproduced⟩ := hg.of_check_eq_ok hcheck
  have hl := hg.linked
  obtain ⟨s', hs', -, hv⟩ := hg.schedule_accepted
  cases hs.symm.trans hs'
  refine ⟨hl.supplied, fun x hx hrole => ?_, hv.nodup, fun o ho => ?_⟩
  · obtain ⟨o, ho⟩ := hproduced x hx hrole
    obtain ⟨op, a, hop, ha, hresult⟩ := (hl.produces x hx o).1 ho
    exact ⟨o, op, a, ho, hop, ha, hresult⟩
  · have hop := List.getElem?_eq_getElem ho
    exact (hv.mem_iff o).2 ⟨_, hop, happlied _ (List.mem_of_getElem? hop)⟩

/-- Bindings leave a graph checked. -/
theorem Narrows.checked {h : Graph} (hn : g.Narrows h) (hc : g.Checked s) : h.Checked s := by
  refine ⟨?_, ?_, hc.nodup, fun o ho => hc.complete o (hn.operators.length_eq ▸ ho)⟩
  · rw [hn.tensors]
    exact hc.supplied
  · rw [hn.tensors]
    intro x hx hrole
    obtain ⟨o, op, a, hproducer, hop, ha, hresult⟩ := hc.produced x hx hrole
    obtain ⟨op', hop', pending, rfl⟩ := Computation.exists_result hn.operators hop
    exact ⟨o, _, { a with pending }, hproducer, hop', by simp [Operator.withPending, ha], hresult⟩

end Graph

end TensorLowering
