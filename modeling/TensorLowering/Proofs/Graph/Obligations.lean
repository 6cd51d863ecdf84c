import TensorLowering.Proofs.Graph.Growth

/-!
# No shape obligation is lost or invented

Obligations are decided at different moments: when an operator is applied, and whenever a symbol is
bound after that. `Graph.demands` asks the rule of an operator again, on its operands as they are
now, and `Graph.Settled` says that the obligations an operator carries are exactly the open ones
among these, all others being met. Every step keeps a coherent graph settled (`Graph.Step.settled`):
the operands of an applied operator keep their shapes, and an obligation that is met stays met in
every larger table.

It follows that revalidation changes nothing (`Graph.Settled.revalidate_eq`).
-/

namespace TensorLowering

/-- Narrowing down the obligations of an operator leaves what was kept. -/
theorem Operator.pending_withPending_filter (op : Operator) (keep : Obligation → Bool) :
    (op.withPending (op.pending.filter keep)).pending = op.pending.filter keep := by
  cases h : op.application with
  | none => simp [withPending, pending, h]
  | some a => simp [withPending, pending, h]

/-- An operator that gets the obligations it has stays as it is. -/
theorem Operator.withPending_pending (op : Operator) : op.withPending op.pending = op := by
  obtain ⟨id, name, kind, application⟩ := op
  cases application with
  | none => rfl
  | some a => rfl

namespace Graph

variable {g h : Graph} {op op' : Operator} {a : Application}

/-- The obligations that the rule of an operator puts on its operands as they are now; none before
the operator is applied. -/
def demands (g : Graph) (op : Operator) : Lowering (List Obligation) :=
  match op.application with
  | none => pure []
  | some a => do
    let x ← g.tensor a.data
    let s ← g.tensor a.parameter
    op.kind.obligations ⟨op.label, some x, some s⟩

/-- Every operator carries the open ones of its rule's obligations, in the order of the rule, and no
obligation is violated. -/
def Settled (g : Graph) : Prop :=
  ∀ op ∈ g.operators, ∃ os, g.demands op = .ok os ∧
    (∀ o ∈ os, o.Tenable op.label g.symbols) ∧
    op.pending = os.filter (Obligation.isOpen op.label g.symbols)

/-! ## Demands do not change -/

theorem demands_of_attached {x s y : Tensor} (ha : op.application = some a)
    (hatt : g.Attached op a x s y) :
    g.demands op = op.kind.obligations ⟨op.label, some x, some s⟩ := by
  simp only [demands, ha, tensor_eq_ok.2 hatt.data, tensor_eq_ok.2 hatt.parameter,
    Computation.ok_bind]

/-- The rule of an operator asks the same of its operands however the graph grows, unless the growth
is that the operator is applied. -/
theorem Coherent.demands_grown (hg : g.Coherent) (hgrow : g.Grows h) (hmem : op ∈ g.operators)
    (hop : op.Grows op') (hsame : op.application = none → op'.application = none) :
    h.demands op' = g.demands op := by
  cases ha : op.application with
  | none => simp only [demands, ha, hsame ha]
  | some a =>
    obtain ⟨x, s, y, hatt⟩ := hg.attached op hmem a ha
    obtain ⟨pending, ha', -⟩ := hop.application a ha
    obtain ⟨x', s', y', hatt', hx, hs⟩ := hatt.grows hgrow hop { a with pending } ⟨rfl, rfl, rfl⟩
    have hlabel : op'.label = op.label := by simp [Operator.label, hop.name, hop.kind]
    rw [demands_of_attached ha hatt, demands_of_attached ha' hatt', hop.kind, hlabel]
    exact OperatorKind.obligations_congr (hx.shape (.inr (List.ne_nil_of_mem hatt.data_consumers)))
      (hs.shape (.inr (List.ne_nil_of_mem hatt.parameter_consumers)))

/-- An application asks afterwards what it asked when it was made. -/
theorem demands_attach {data parameter : TensorId} {x s : Tensor} {shape : Shape}
    {pending : List Obligation} (hx : g.tensors[data]? = some x)
    (hs : g.tensors[parameter]? = some s) :
    (g.attach op data parameter shape pending).demands
        { op with application := some ⟨data, parameter, g.tensors.length, pending⟩ } =
      op.kind.obligations ⟨op.label, some x, some s⟩ := by
  have hdata := (List.getElem?_eq_some_iff.1 hx).1
  have hparam := (List.getElem?_eq_some_iff.1 hs).1
  simp only [demands, tensor_eq_ok.2 (tensors_attach_operand hdata hparam hx (.inl rfl)),
    tensor_eq_ok.2 (tensors_attach_operand hdata hparam hs (.inr rfl)), Computation.ok_bind]
  exact OperatorKind.obligations_congr (x.shape_addConsumer _) (s.shape_addConsumer _)

/-- An operator that a step leaves alone under the same symbols stays settled. -/
theorem Settled.same (hs : g.Settled) (hg : g.Coherent) (hgrow : g.Grows h)
    (hsym : h.symbols = g.symbols) (hmem : op ∈ g.operators) :
    ∃ os, h.demands op = .ok os ∧ (∀ o ∈ os, o.Tenable op.label h.symbols) ∧
      op.pending = os.filter (Obligation.isOpen op.label h.symbols) := by
  rw [hg.demands_grown hgrow hmem (.refl op) id, hsym]
  exact hs op hmem

/-! ## Steps keep graphs settled -/

theorem Step.settled (hs : g.Step h) (hg : g.Coherent) (hset : g.Settled) : h.Settled := by
  have hgrow := hs.grows hg
  cases hs with
  | symbol label =>
    intro op hmem
    obtain ⟨os, hos, hten, hpend⟩ := hset op hmem
    refine ⟨os, by rw [hg.demands_grown hgrow hmem (.refl op) id, hos], fun o ho => ?_, ?_⟩
    · obtain ⟨met, hmet⟩ := hten o ho
      exact ⟨met, Obligation.check_create hmet⟩
    · rw [hpend]
      refine List.filter_congr fun o ho => ?_
      obtain ⟨met, hmet⟩ := hten o ho
      simp only [Obligation.isOpen, hmet, Obligation.check_create hmet]
  | tensor hid hprod hcons => exact fun op hmem => hset.same hg hgrow rfl hmem
  | @operator op hid happ =>
    intro op' hmem
    rcases List.mem_append.1 hmem with hmem | hmem
    · exact hset.same hg hgrow rfl hmem
    · cases List.mem_singleton.1 hmem
      exact ⟨[], by simp only [demands, happ]; rfl, fun _ ho => absurd ho List.not_mem_nil,
        by simp [Operator.pending, happ]⟩
  | output hx hrole => exact fun op hmem => hset.same hg hgrow rfl hmem
  | relabel hx hprod hcons hshape => exact fun op hmem => hset.same hg hgrow rfl hmem
  | @attach id op data parameter x s obligations shape hop happ hx hs hobl hten hshape =>
    intro op' hmem
    rcases hg.mem_attach hop hmem with rfl | hmem
    · exact ⟨obligations, (demands_attach hx hs).trans hobl, hten, rfl⟩
    · exact hset.same hg hgrow rfl hmem
  | @settle t h ht hsettle =>
    obtain ⟨operators, hops, rfl⟩ := settle_eq_ok.1 hsettle
    intro op' hmem
    obtain ⟨op, hop, htenable, rfl⟩ := Computation.exists_item_of_mem hops hmem
    obtain ⟨os, hos, hten, hpend⟩ := hset op hop
    refine ⟨os, ?_, fun o ho => ?_, ?_⟩
    · rw [hg.demands_grown hgrow hop (op.grows_withPending List.filter_sublist)
        (fun hnone => by simp [Operator.withPending, hnone]), hos]
    · -- What was met stays met, and what was open has just been looked at.
      cases hopen : o.isOpen op.label g.symbols with
      | false =>
        exact ⟨true, Obligation.check_eq_true_of_extends ht
          ((hten o ho).isOpen_eq_false_iff.1 hopen)⟩
      | true => exact htenable o (by rw [hpend]; exact List.mem_filter.2 ⟨ho, hopen⟩)
    · rw [Operator.pending_withPending_filter, hpend, Obligation.filter_isOpen_filter ht hten]
      rfl

/-- Every reachable graph is settled. -/
theorem Reachable.settled (hg : g.Reachable) : g.Settled :=
  (hg.induction (P := fun g => g.Coherent ∧ g.Settled) ⟨⟨nofun, nofun, nofun⟩, nofun⟩
    fun hg hs => ⟨hs.coherent hg.1, hs.settled hg.1 hg.2⟩).2

/-! ## Revalidation -/

/-- Looking again under the same table finds nothing new. -/
theorem Settled.revalidate_eq (hs : g.Settled) : g.revalidate = .ok g := by
  refine settle_eq_ok.2 ⟨g.operators, List.forall₂_same.2 fun op hop => ?_, rfl⟩
  obtain ⟨os, -, hten, hpend⟩ := hs op hop
  have hfilter : op.pending.filter (Obligation.isOpen op.label g.symbols) = op.pending := by
    rw [hpend, List.filter_filter]
    simp
  refine ⟨fun o ho => hten o ?_, ?_⟩
  · rw [hpend] at ho
    exact (List.mem_filter.1 ho).1
  · rw [hfilter]
    exact (op.withPending_pending).symm

end Graph

end TensorLowering
