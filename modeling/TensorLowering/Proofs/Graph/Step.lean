import TensorLowering.Graph.Script
import TensorLowering.Proofs.Obligation

/-!
# What a construction step can do

`Graph.Step` lists, once, everything a successful step of construction can do to a graph. Every
successful `Edit.run` is such a step or leaves the graph alone (`Edit.step_of_run`), so an invariant
of the reachable graphs needs one case for each constructor (`Graph.Reachable.induction`). When an
edit succeeds, and with which graph, is said edit by edit (`Graph.addTensor_eq_ok`,
`Graph.markOutput_eq_ok`, `Graph.changeOrder_eq_ok`, `Graph.apply_eq_ok`, `Graph.settle_eq_ok`). The
result of an application is described node by node: `Graph.tensors_attach`,
`Graph.operators_attach`.
-/

namespace TensorLowering

/-- An operator that is listed already is not listed again. -/
theorem Tensor.addConsumer_addConsumer (x : Tensor) (id : OperatorId) :
    (x.addConsumer id).addConsumer id = x.addConsumer id := by
  unfold addConsumer
  split
  · rfl
  · simp

/-! ## The slots of an operator -/

namespace Operator

variable {op : Operator} {a : Application} {name : String} {id : TensorId}

/-- An operator that has an operand has been applied. -/
theorem exists_application (h : op.input name = .ok id) : ∃ a, op.application = some a := by
  cases ha : op.application with
  | none => simp [input, slot, inputs, ha] at h
  | some a => exact ⟨a, rfl⟩

theorem input_dataSlot (ha : op.application = some a) :
    op.input op.kind.dataSlot = .ok a.data := by
  simp [input, slot, inputs, ha]

theorem input_parameterSlot (ha : op.application = some a) :
    op.input op.kind.parameterSlot = .ok a.parameter := by
  cases h : op.kind <;>
    simp [input, slot, inputs, ha, h, OperatorKind.dataSlot, OperatorKind.parameterSlot,
      List.lookup_cons]

theorem output_resultSlot (ha : op.application = some a) :
    op.output op.kind.resultSlot = .ok a.result := by
  simp [output, slot, outputs, ha]

end Operator

namespace Graph

variable {g h : Graph} {id : Nat} {x : Tensor} {op : Operator} {t : SymbolTable}

/-! ## Look-ups -/

theorem tensor_eq_ok : g.tensor id = .ok x ↔ g.tensors[id]? = some x := by
  unfold tensor
  split
  · next y hy => simp [hy]
  · next hy => simp [hy]

theorem operator_eq_ok : g.operator id = .ok op ↔ g.operators[id]? = some op := by
  unfold operator
  split
  · next o ho => simp [ho]
  · next ho => simp [ho]

/-! ## Settling a graph -/

/-- A settled graph keeps its tensors, takes the new table, and keeps of every operator's
obligations those that are open. -/
theorem settle_eq_ok :
    g.settle t = .ok h ↔
      ∃ operators, List.Forall₂ (fun op op' => (∀ o ∈ op.pending, o.Tenable op.label t) ∧
          op' = op.withPending (op.pending.filter (Obligation.isOpen op.label t)))
        g.operators operators ∧ h = ⟨g.tensors, operators, t⟩ := by
  simp only [settle, Computation.bind_eq_ok, Computation.mapM_eq_ok, settleOperator,
    Obligation.settle_eq_ok_iff, Computation.pure_eq_ok]
  constructor
  · rintro ⟨operators, hops, rfl⟩
    refine ⟨operators, hops.imp ?_, rfl⟩
    rintro op op' ⟨_, ⟨hten, rfl⟩, rfl⟩
    exact ⟨hten, rfl⟩
  · rintro ⟨operators, hops, rfl⟩
    refine ⟨operators, hops.imp ?_, rfl⟩
    rintro op op' ⟨hten, rfl⟩
    exact ⟨_, ⟨hten, rfl⟩, rfl⟩

/-! ## Steps -/

/-- Everything a successful step of construction can do to a graph. -/
inductive Step (g : Graph) : Graph → Prop
  /-- A new symbol. -/
  | symbol (label : String) : Step g { g with symbols := g.symbols.create label }
  /-- A new tensor without edges. -/
  | tensor {x : Tensor} (hid : x.id = g.tensors.length) (hprod : x.producer = none)
      (hcons : x.consumers = []) : Step g { g with tensors := g.tensors ++ [x] }
  /-- A new operator that has not been applied. -/
  | operator {op : Operator} (hid : op.id = g.operators.length) (happ : op.application = none) :
      Step g { g with operators := g.operators ++ [op] }
  /-- A tensor that the graph computes becomes an output. -/
  | output {id : TensorId} {x : Tensor} (hx : g.tensors[id]? = some x)
      (hrole : x.role = .intermediate ∨ x.role = .output) :
      Step g (g.setTensor id { x with role := .output })
  /-- A tensor without edges takes another order of its axes. -/
  | relabel {id : TensorId} {x : Tensor} {target : Order} {shape : Shape}
      (hx : g.tensors[id]? = some x) (hprod : x.producer = none) (hcons : x.consumers = [])
      (hshape : x.shape.relabel x.subject target = .ok shape) :
      Step g (g.setTensor id { x with shape })
  /-- An operator is applied to two tensors. -/
  | attach {id : OperatorId} {op : Operator} {data parameter : TensorId} {x s : Tensor}
      {obligations : List Obligation} {shape : Shape} (hop : g.operators[id]? = some op)
      (happ : op.application = none) (hx : g.tensors[data]? = some x)
      (hs : g.tensors[parameter]? = some s)
      (hobl : op.kind.obligations ⟨op.label, some x, some s⟩ = .ok obligations)
      (hten : ∀ o ∈ obligations, o.Tenable op.label g.symbols)
      (hshape : op.kind.resultShape g.symbols ⟨op.label, some x, some s⟩ = .ok shape) :
      Step g (g.attach op data parameter shape
        (obligations.filter (Obligation.isOpen op.label g.symbols)))
  /-- The open obligations are looked at again under a table that knows at least as much. -/
  | settle {t : SymbolTable} {h : Graph} (ht : g.symbols.Extends t) (hsettle : g.settle t = .ok h) :
      Step g h

/-! ## The graph after an application -/

section
variable {data parameter : TensorId} {shape : Shape} {pending : List Obligation}

/-- An application changes no tensor that was there, except that its operands list the operator,
and adds its result. -/
theorem tensors_attach (hdata : data < g.tensors.length) (hparam : parameter < g.tensors.length)
    (i : TensorId) :
    (g.attach op data parameter shape pending).tensors[i]? =
      if i = g.tensors.length then
        some ⟨i, op.name ++ "_" ++ op.kind.resultSlot, .intermediate, shape, some op.id, []⟩
      else g.tensors[i]?.map fun x =>
        if i = data ∨ i = parameter then x.addConsumer op.id else x := by
  have hlast : ∀ r : Tensor, (g.tensors ++ [r])[i]? =
      if i = g.tensors.length then some r else g.tensors[i]? := by
    intro r
    rcases Nat.lt_trichotomy i g.tensors.length with hi | rfl | hi
    · rw [List.getElem?_append_left hi, if_neg (Nat.ne_of_lt hi)]
    · simp
    · rw [if_neg (Nat.ne_of_gt hi), List.getElem?_eq_none (by simp; omega),
        List.getElem?_eq_none (Nat.le_of_lt hi)]
  simp only [attach, List.getElem?_modify, hlast]
  by_cases hi : i = g.tensors.length
  · simp [hi, Nat.ne_of_lt hdata, Nat.ne_of_lt hparam]
  · by_cases hd : i = data
    · by_cases hp : i = parameter
      · simp [hi, ← hd, ← hp, Function.comp_def, Tensor.addConsumer_addConsumer]
      · simp [hi, ← hd, Ne.symm hp]
    · by_cases hp : i = parameter
      · simp [hi, hd, ← hp, Ne.symm hd]
      · simp [hi, hd, hp, Ne.symm hd, Ne.symm hp]

/-- After an application, an operand lists the operator. -/
theorem tensors_attach_operand {i : TensorId} (hdata : data < g.tensors.length)
    (hparam : parameter < g.tensors.length) (hx : g.tensors[i]? = some x)
    (hi : i = data ∨ i = parameter) :
    (g.attach op data parameter shape pending).tensors[i]? = some (x.addConsumer op.id) := by
  have hlt : i < g.tensors.length := (List.getElem?_eq_some_iff.1 hx).1
  rw [tensors_attach hdata hparam, if_neg (Nat.ne_of_lt hlt), hx, Option.map_some, if_pos hi]

/-- Tensors that are related one by one still are when an operator is applied in both graphs. -/
theorem forall₂_attach {R : Tensor → Tensor → Prop} {shape' : Shape} {pending' : List Obligation}
    (hgh : List.Forall₂ R g.tensors h.tensors)
    (hreads : ∀ x y, R x y → R (x.addConsumer op.id) (y.addConsumer op.id))
    (hresult : R
      ⟨g.tensors.length, op.name ++ "_" ++ op.kind.resultSlot, .intermediate, shape, some op.id, []⟩
      ⟨h.tensors.length, op.name ++ "_" ++ op.kind.resultSlot, .intermediate, shape', some op.id,
        []⟩) :
    List.Forall₂ R (g.attach op data parameter shape pending).tensors
      (h.attach op data parameter shape' pending').tensors :=
  Computation.forall₂_modify (Computation.forall₂_modify
    (List.rel_append hgh (.cons hresult .nil)) hreads data) hreads parameter

/-- An application changes the operator that is applied and no other. -/
theorem operators_attach (i : OperatorId) :
    (g.attach op data parameter shape pending).operators[i]? =
      if op.id = i then g.operators[i]?.map
        ({ · with application := some ⟨data, parameter, g.tensors.length, pending⟩ })
      else g.operators[i]? := by
  simp only [attach, List.getElem?_modify]
  split
  · rfl
  · simp

/-- After an application, the operator is applied. -/
theorem operators_attach_self (hop : g.operators[id]? = some op) (hid : op.id = id) :
    (g.attach op data parameter shape pending).operators[id]? =
      some { op with application := some ⟨data, parameter, g.tensors.length, pending⟩ } := by
  rw [operators_attach, if_pos hid, hop, Option.map_some]

end

/-! ## What single edits do -/

/-- A declaration succeeds when there is one extent for each axis. -/
theorem addTensor_eq_ok {role : Role} {name : String} {order : Order} {extents : List Extent}
    {r : Graph × TensorId} :
    g.addTensor role name order extents = .ok r ↔
      ∃ hlen : extents.length = order.rank, ({ g with tensors := g.tensors ++
        [⟨g.tensors.length, name, role, ⟨order, extents, hlen⟩, none, []⟩] },
        g.tensors.length) = r := by
  simp only [addTensor, Shape.ofExtents, Computation.bind_eq_ok, Computation.pure_eq_ok]
  constructor
  · rintro ⟨shape, hshape, rfl⟩
    split at hshape
    · next hlen =>
      cases hshape
      exact ⟨hlen, rfl⟩
    · cases hshape
  · rintro ⟨hlen, rfl⟩
    exact ⟨_, dif_pos hlen, rfl⟩

/-- Only a tensor that the graph computes can be marked as an output. -/
theorem markOutput_eq_ok :
    g.markOutput id = .ok h ↔ ∃ x, g.tensors[id]? = some x ∧
      (x.role = .intermediate ∨ x.role = .output) ∧
      g.setTensor id { x with role := .output } = h := by
  simp only [markOutput, Computation.bind_eq_ok, tensor_eq_ok]
  refine exists_congr fun x => and_congr_right fun _ => ?_
  cases x.role <;> simp [throw, throwThe, MonadExceptOf.throw, pure, Except.pure]

/-- Only a tensor without edges can be relabelled. -/
theorem changeOrder_eq_ok {target : Order} :
    g.changeOrder id target = .ok h ↔ ∃ x shape, g.tensors[id]? = some x ∧ x.producer = none ∧
      x.consumers = [] ∧ x.shape.relabel x.subject target = .ok shape ∧
      g.setTensor id { x with shape } = h := by
  simp only [changeOrder, Tensor.relabel, Computation.bind_eq_ok, tensor_eq_ok,
    Computation.guard_eq_ok, Computation.pure_eq_ok]
  constructor
  · rintro ⟨x, hx, hfree, y, ⟨shape, hshape, rfl⟩, rfl⟩
    have hfree' : x.producer = none ∧ x.consumers = [] := by
      simpa using hfree
    exact ⟨x, shape, hx, hfree'.1, hfree'.2, hshape, rfl⟩
  · rintro ⟨x, shape, hx, hprod, hcons, hshape, rfl⟩
    exact ⟨x, hx, by simp [hprod, hcons], _, ⟨shape, hshape, rfl⟩, rfl⟩

/-- An application succeeds once, on two tensors, when the rule finds no mismatch and no obligation
is violated. -/
theorem apply_eq_ok {inputs : List TensorId} {r : Graph × TensorId} :
    g.apply id inputs = .ok r ↔ ∃ op data parameter x s obligations shape,
      inputs = [data, parameter] ∧ g.operators[id]? = some op ∧ op.application = none ∧
      g.tensors[data]? = some x ∧ g.tensors[parameter]? = some s ∧
      op.kind.obligations ⟨op.label, some x, some s⟩ = .ok obligations ∧
      (∀ o ∈ obligations, o.Tenable op.label g.symbols) ∧
      op.kind.resultShape g.symbols ⟨op.label, some x, some s⟩ = .ok shape ∧
      (g.attach op data parameter shape
        (obligations.filter (Obligation.isOpen op.label g.symbols)), g.tensors.length) = r := by
  unfold apply
  simp only [Computation.bind_eq_ok, operator_eq_ok, Computation.guard_eq_ok]
  constructor
  · rintro ⟨op, hop, happ, hr⟩
    split at hr
    · next data parameter =>
      simp only [Computation.bind_eq_ok, tensor_eq_ok, Obligation.settle_eq_ok_iff,
        Computation.pure_eq_ok] at hr
      obtain ⟨x, hx, s, hs, obligations, hobl, pending, ⟨hten, rfl⟩, shape, hshape, rfl⟩ := hr
      have hnone : op.application = none := by
        simpa [Operator.isApplied] using happ
      exact ⟨op, data, parameter, x, s, obligations, shape, rfl, hop, hnone, hx, hs, hobl, hten,
        hshape, rfl⟩
    · cases hr
  · rintro ⟨op, data, parameter, x, s, obligations, shape, rfl, hop, happ, hx, hs, hobl, hten,
      hshape, rfl⟩
    simp only [Computation.bind_eq_ok, tensor_eq_ok, Obligation.settle_eq_ok_iff,
      Computation.pure_eq_ok]
    exact ⟨op, hop, by simp [Operator.isApplied, happ], x, hx, s, hs, obligations, hobl, _,
      ⟨hten, rfl⟩, shape, hshape, rfl⟩

end Graph

open TensorLowering.Graph in
/-- A successful edit takes a step or changes nothing. -/
theorem Edit.step_of_run {g h : Graph} {e : Edit} (he : e.run g = .ok h) : h = g ∨ g.Step h := by
  cases e with
  | addSymbol label =>
    cases he
    exact .inr (.symbol label)
  | addTensor declaration name order extents =>
    obtain ⟨r, hr, rfl⟩ := Computation.map_eq_ok.1 he
    obtain ⟨hlen, rfl⟩ := addTensor_eq_ok.1 hr
    exact .inr (.tensor rfl rfl rfl)
  | addOperator name kind =>
    cases he
    exact .inr (.operator rfl rfl)
  | markOutput id =>
    obtain ⟨x, hx, hrole, rfl⟩ := markOutput_eq_ok.1 he
    exact .inr (.output hx hrole)
  | changeOrder id target =>
    obtain ⟨x, shape, hx, hprod, hcons, hshape, rfl⟩ := changeOrder_eq_ok.1 he
    exact .inr (.relabel hx hprod hcons hshape)
  | apply id inputs =>
    obtain ⟨r, hr, rfl⟩ := Computation.map_eq_ok.1 he
    obtain ⟨op, data, parameter, x, s, obligations, shape, rfl, hop, happ, hx, hs, hobl, hten,
      hshape, rfl⟩ := apply_eq_ok.1 hr
    exact .inr (.attach hop happ hx hs hobl hten hshape)
  | bind k value =>
    obtain ⟨bound, hb, hr⟩ := Computation.bind_eq_ok.1 he
    cases bound with
    | none =>
      cases hr
      exact .inl rfl
    | some t => exact .inr (.settle (SymbolTable.extends_of_bind hb) hr)
  | revalidate => exact .inr (.settle (.refl _) he)

namespace Graph

/-- What every successful edit keeps, a script keeps, whichever of its edits fail. -/
theorem replay_invariant {P : Graph → Prop}
    (step : ∀ {g h : Graph} {e : Edit}, P g → e.run g = .ok h → P h) {g : Graph} (hg : P g)
    (script : List Edit) : P (g.replay script) := by
  induction script generalizing g with
  | nil => exact hg
  | cons e rest ih =>
    refine ih (g := g.attempt e) ?_
    unfold attempt
    split
    · next h he => exact step hg he
    · exact hg

/-- What holds of the empty graph and is kept by every step holds of every reachable graph. -/
theorem Reachable.induction {P : Graph → Prop} (base : P .empty)
    (step : ∀ {g h : Graph}, P g → g.Step h → P h) {g : Graph} (hg : g.Reachable) : P g := by
  obtain ⟨script, rfl⟩ := hg
  refine replay_invariant (fun hg he => ?_) base script
  rcases Edit.step_of_run he with rfl | hstep
  · exact hg
  · exact step hg hstep

end Graph

end TensorLowering
