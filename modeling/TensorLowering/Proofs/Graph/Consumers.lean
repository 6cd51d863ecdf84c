import TensorLowering.Proofs.Graph.Growth

/-!
# Consumers

Every consumer edge of a reachable graph belongs to an application: a tensor lists the operators
that read it, and lists each of them once, also when an operator reads it in both slots
(`Graph.Consumed`, `Graph.Reachable.consumed`). `Graph.Coherent` says the converse, that operands
list the operators that were applied to them.
-/

namespace TensorLowering

namespace Tensor

variable {x : Tensor} {id o : OperatorId}

theorem mem_addConsumer : o ∈ (x.addConsumer id).consumers ↔ o ∈ x.consumers ∨ o = id := by
  unfold addConsumer
  split
  · next h =>
    have hmem : id ∈ x.consumers := by simpa using h
    exact ⟨.inl, fun h => h.elim (fun ho => ho) fun heq => heq ▸ hmem⟩
  · simp

theorem nodup_addConsumer (hx : x.consumers.Nodup) : (x.addConsumer id).consumers.Nodup := by
  unfold addConsumer
  split
  · exact hx
  · next h =>
    have hfresh : id ∉ x.consumers := by simpa using h
    refine List.nodup_append.2 ⟨hx, by simp, fun o ho o' ho' heq => hfresh ?_⟩
    rwa [← List.mem_singleton.1 ho', ← heq]

end Tensor

namespace Graph

variable {g h : Graph} {i : TensorId} {o : OperatorId} {x y : Tensor}

/-- The operator was applied to the tensor. -/
def Reads (g : Graph) (o : OperatorId) (i : TensorId) : Prop :=
  ∃ op a, g.operators[o]? = some op ∧ op.application = some a ∧ (a.data = i ∨ a.parameter = i)

/-- Every tensor lists operators that read it, each once. -/
def Consumed (g : Graph) : Prop :=
  ∀ (i : TensorId) (x : Tensor), g.tensors[i]? = some x →
    x.consumers.Nodup ∧ ∀ o ∈ x.consumers, g.Reads o i

/-- Operators keep reading what they were applied to. -/
theorem Reads.grows (hr : g.Reads o i) (hgrow : g.Grows h) : h.Reads o i := by
  obtain ⟨op, a, hop, ha, hi⟩ := hr
  obtain ⟨op', hop', hgrows⟩ := hgrow.operators o op hop
  obtain ⟨pending, ha', -⟩ := hgrows.application a ha
  exact ⟨op', _, hop', ha', hi⟩

/-- A tensor with the consumers it had before a step lists operators that read it. -/
theorem Consumed.same (hc : g.Consumed) (hgrow : g.Grows h) (hx : g.tensors[i]? = some x)
    (hsame : y.consumers = x.consumers) :
    y.consumers.Nodup ∧ ∀ o ∈ y.consumers, h.Reads o i := by
  obtain ⟨hnodup, hreads⟩ := hc i x hx
  rw [hsame]
  exact ⟨hnodup, fun o ho => (hreads o ho).grows hgrow⟩

theorem Step.consumed (hs : g.Step h) (hg : g.Coherent) (hc : g.Consumed) : h.Consumed := by
  have hgrow := hs.grows hg
  intro i y hy
  cases hs with
  | symbol label => exact hc.same hgrow hy rfl
  | @tensor x hid hprod hcons =>
    rcases getElem?_concat_cases hy with hy | ⟨-, rfl⟩
    · exact hc.same hgrow hy rfl
    · simp [hcons]
  | operator hid happ => exact hc.same hgrow hy rfl
  | output hx hrole | relabel hx hprod hcons hshape =>
    rw [tensors_setTensor hx] at hy
    split at hy
    · next hi =>
      subst hi
      cases hy
      exact hc.same hgrow hx rfl
    · exact hc.same hgrow hy rfl
  | @attach id op data parameter x s obligations shape hop happ hx hs hobl hten hshape =>
    have hdata := (List.getElem?_eq_some_iff.1 hx).1
    have hparam := (List.getElem?_eq_some_iff.1 hs).1
    rw [tensors_attach hdata hparam] at hy
    split at hy
    · cases hy
      simp
    · obtain ⟨z, hz, rfl⟩ := Option.map_eq_some_iff.1 hy
      obtain ⟨hnodup, hreads⟩ := hc.same hgrow hz rfl
      split
      · next hi =>
        -- The one new consumer of an operand is the operator that is applied to it.
        cases hg.operator_id _ _ hop
        refine ⟨Tensor.nodup_addConsumer hnodup, fun o ho => ?_⟩
        rcases Tensor.mem_addConsumer.1 ho with ho | rfl
        · exact hreads o ho
        · exact ⟨_, _, operators_attach_self hop rfl, rfl, hi.imp Eq.symm Eq.symm⟩
      · exact ⟨hnodup, hreads⟩
  | settle ht hsettle =>
    obtain ⟨operators, -, rfl⟩ := settle_eq_ok.1 hsettle
    exact hc.same hgrow hy rfl

/-- In a reachable graph every consumer edge belongs to an application. -/
theorem Reachable.consumed (hg : g.Reachable) : g.Consumed :=
  (hg.induction (P := fun g => g.Coherent ∧ g.Consumed) ⟨⟨nofun, nofun, nofun⟩, nofun⟩
    fun hg hs => ⟨hs.coherent hg.1, hs.consumed hg.1 hg.2⟩).2

end Graph

end TensorLowering
