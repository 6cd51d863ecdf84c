import TensorLowering.Proofs.Graph.Growth

/-!
# Producers

Every producer edge of a reachable graph belongs to an application: a tensor that names a producer
is the result of that operator, and is computed by the graph and not supplied from outside
(`Graph.Produced`, `Graph.Reachable.produced`). With the edges that applications mirror
(`Graph.Coherent`) this orders applied operators by their results: what feeds an operator has been
applied and has an older result than it (`Graph.Produced.result_lt`).
-/

namespace TensorLowering

/-- The operators that compute the operands of an operator, in slot order; one that computes both
stands twice. -/
def Graph.feeders (g : Graph) (op : Operator) : List OperatorId :=
  op.inputs.filterMap fun (_, input) => g.tensors[input]?.bind Tensor.producer

namespace Graph

variable {g h : Graph} {op : Operator} {a : Application} {x s y : Tensor} {i : TensorId}
  {o : OperatorId}

/-- Every tensor with a producer is the result of that operator, and not supplied from outside. -/
def Produced (g : Graph) : Prop :=
  ∀ (i : TensorId) (x : Tensor) (o : OperatorId), g.tensors[i]? = some x → x.producer = some o →
    (x.role = .intermediate ∨ x.role = .output) ∧
      ∃ op a, g.operators[o]? = some op ∧ op.application = some a ∧ a.result = i

/-! ## Steps keep producers -/

/-- A tensor that was there before a step has the producer it had. -/
theorem Produced.grown (hp : g.Produced) (hgrow : g.Grows h) (hi : i < g.tensors.length)
    (hy : h.tensors[i]? = some y) (ho : y.producer = some o) :
    (y.role = .intermediate ∨ y.role = .output) ∧
      ∃ op a, h.operators[o]? = some op ∧ op.application = some a ∧ a.result = i := by
  have hx := List.getElem?_eq_getElem hi
  obtain ⟨y', hy', hxy⟩ := hgrow.tensors i _ hx
  cases hy.symm.trans hy'
  rw [hxy.producer] at ho
  obtain ⟨hrole, op, a, hop, ha, hresult⟩ := hp i _ o hx ho
  obtain ⟨op', hop', hgrows⟩ := hgrow.operators o op hop
  obtain ⟨pending, ha', -⟩ := hgrows.application a ha
  refine ⟨?_, op', _, hop', ha', hresult⟩
  rcases hxy.role with heq | ⟨-, hout⟩
  · rwa [heq]
  · exact .inr hout

theorem Step.produced (hs : g.Step h) (hg : g.Coherent) (hp : g.Produced) : h.Produced := by
  have hgrow := hs.grows hg
  -- Only a tensor that the step adds needs a look.
  suffices hnew : ∀ i x o, g.tensors.length ≤ i → h.tensors[i]? = some x → x.producer = some o →
      (x.role = .intermediate ∨ x.role = .output) ∧
        ∃ op a, h.operators[o]? = some op ∧ op.application = some a ∧ a.result = i by
    intro i x o hx ho
    rcases Nat.lt_or_ge i g.tensors.length with hi | hi
    · exact hp.grown hgrow hi hx ho
    · exact hnew i x o hi hx ho
  have hnone : ∀ {tensors : List Tensor} {i : TensorId} {x : Tensor},
      tensors.length = g.tensors.length → g.tensors.length ≤ i → tensors[i]? ≠ some x := by
    intro tensors i x hlen hi hx
    have hlt := (List.getElem?_eq_some_iff.1 hx).1
    omega
  intro i x o hi hx ho
  cases hs with
  | symbol label => exact absurd hx (hnone rfl hi)
  | @tensor z hid hprod hcons =>
    rcases getElem?_concat_cases hx with hx | ⟨-, rfl⟩
    · exact absurd hx (hnone rfl hi)
    · rw [hprod] at ho
      cases ho
  | operator hid happ => exact absurd hx (hnone rfl hi)
  | output hz hrole => exact absurd hx (hnone (List.length_set ..) hi)
  | relabel hz hprod hcons hshape => exact absurd hx (hnone (List.length_set ..) hi)
  | @attach id op data parameter z s obligations shape hop happ hz hs hobl hten hshape =>
    have hdata := (List.getElem?_eq_some_iff.1 hz).1
    have hparam := (List.getElem?_eq_some_iff.1 hs).1
    rw [tensors_attach hdata hparam] at hx
    split at hx
    · next heq =>
      cases hx
      cases ho
      cases hg.operator_id _ _ hop
      exact ⟨.inl rfl, _, _, operators_attach_self hop rfl, rfl, heq.symm⟩
    · rw [List.getElem?_eq_none hi] at hx
      cases hx
  | settle ht hsettle =>
    obtain ⟨operators, -, rfl⟩ := settle_eq_ok.1 hsettle
    exact absurd hx (hnone rfl hi)

/-- In a reachable graph every producer edge belongs to an application. -/
theorem Reachable.produced (hg : g.Reachable) : g.Produced :=
  (hg.induction (P := fun g => g.Coherent ∧ g.Produced) ⟨⟨nofun, nofun, nofun⟩, nofun⟩
    fun hg hs => ⟨hs.coherent hg.1, hs.produced hg.1 hg.2⟩).2

/-! ## Feeders -/

theorem feeders_of_attached (ha : op.application = some a) (hatt : g.Attached op a x s y) :
    g.feeders op = [x.producer, s.producer].filterMap id := by
  cases hx : x.producer <;> cases hs : s.producer <;>
    simp [feeders, Operator.inputs, ha, hatt.data, hatt.parameter, hx, hs]

theorem mem_feeders (ha : op.application = some a) (hatt : g.Attached op a x s y) :
    o ∈ g.feeders op ↔ x.producer = some o ∨ s.producer = some o := by
  simp [feeders_of_attached ha hatt, eq_comm]

/-- A feeder has been applied, and its result is older than that of the operator it feeds. -/
theorem Produced.result_lt (hp : g.Produced) (ha : op.application = some a)
    (hatt : g.Attached op a x s y) (ho : o ∈ g.feeders op) :
    ∃ op' a', g.operators[o]? = some op' ∧ op'.application = some a' ∧ a'.result < a.result := by
  rcases (mem_feeders ha hatt).1 ho with hx | hs
  · obtain ⟨-, op', a', hop', ha', hresult⟩ := hp _ _ _ hatt.data hx
    exact ⟨op', a', hop', ha', hresult ▸ hatt.data_lt⟩
  · obtain ⟨-, op', a', hop', ha', hresult⟩ := hp _ _ _ hatt.parameter hs
    exact ⟨op', a', hop', ha', hresult ▸ hatt.parameter_lt⟩

/-- What feeds an operator has been applied. -/
theorem Reachable.feeder_applied (hg : g.Reachable) (hop : op ∈ g.operators)
    (ho : o ∈ g.feeders op) :
    ∃ source, g.operators[o]? = some source ∧ source.isApplied = true := by
  cases ha : op.application with
  | none => simp [feeders, Operator.inputs, ha] at ho
  | some a =>
    obtain ⟨x, s, y, hatt⟩ := hg.coherent.attached op hop a ha
    obtain ⟨source, a', hsource, ha', -⟩ := hg.produced.result_lt ha hatt ho
    exact ⟨source, hsource, by simp [Operator.isApplied, ha']⟩

end Graph

end TensorLowering
