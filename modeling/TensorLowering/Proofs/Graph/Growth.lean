import TensorLowering.Proofs.Graph.Step

/-!
# Graphs only grow

`Graph.Grows` relates a graph to what construction can make of it: tables are extended, nodes stay
at their handles, a tensor that has an edge keeps its shape, and an operator that has been applied
keeps its operands. `Graph.Coherent` is the invariant that makes this so: handles are positions, and
every application is mirrored by the edges of its tensors (`Graph.Attached`). Both are consequences
of `Graph.Step`, by cases (`Graph.Step.grows`, `Graph.Step.coherent`), and so every reachable graph
is coherent (`Graph.Reachable.coherent`).
-/

namespace TensorLowering

/-! ## Growth -/

/-- The tensor has a producer or a consumer. -/
def Tensor.IsConnected (x : Tensor) : Prop := x.producer ≠ none ∨ x.consumers ≠ []

/-- What construction can make of a tensor: consumers are added at the end, an intermediate tensor
may become an output, and the shape may change only while there is no edge. -/
structure Tensor.Grows (x y : Tensor) : Prop where
  id : y.id = x.id
  name : y.name = x.name
  producer : y.producer = x.producer
  consumers : x.consumers <+: y.consumers
  shape : x.IsConnected → y.shape = x.shape
  role : y.role = x.role ∨ x.role = .intermediate ∧ y.role = .output

/-- What construction can make of an operator: it is applied at most once, and an applied operator
can only lose open obligations. -/
structure Operator.Grows (op op' : Operator) : Prop where
  id : op'.id = op.id
  name : op'.name = op.name
  kind : op'.kind = op.kind
  application : ∀ a, op.application = some a →
    ∃ pending, op'.application = some { a with pending } ∧ pending.Sublist a.pending

/-- What construction can make of a graph. -/
structure Graph.Grows (g h : Graph) : Prop where
  symbols : g.symbols.Extends h.symbols
  tensors : ∀ (i : TensorId) (x : Tensor), g.tensors[i]? = some x →
    ∃ y, h.tensors[i]? = some y ∧ x.Grows y
  operators : ∀ (i : OperatorId) (op : Operator), g.operators[i]? = some op →
    ∃ op', h.operators[i]? = some op' ∧ op.Grows op'

theorem Tensor.Grows.refl (x : Tensor) : x.Grows x :=
  ⟨rfl, rfl, rfl, List.prefix_refl _, fun _ => rfl, .inl rfl⟩

theorem Operator.Grows.refl (op : Operator) : op.Grows op :=
  ⟨rfl, rfl, rfl, fun a ha => ⟨a.pending, ha, List.Sublist.refl _⟩⟩

/-- An operator that loses open obligations has grown. -/
theorem Operator.grows_withPending (op : Operator) {pending : List Obligation}
    (hpending : pending.Sublist op.pending) : op.Grows (op.withPending pending) := by
  refine ⟨rfl, rfl, rfl, fun a ha => ⟨pending, by simp [withPending, ha], ?_⟩⟩
  simpa [Operator.pending, ha] using hpending

theorem Tensor.shape_addConsumer (x : Tensor) (id : OperatorId) :
    (x.addConsumer id).shape = x.shape := by
  unfold addConsumer
  split
  · rfl
  · rfl

/-- A tensor that gets one more consumer has grown, and lists that consumer. -/
theorem Tensor.grows_addConsumer (x : Tensor) (id : OperatorId) :
    x.Grows (x.addConsumer id) ∧ id ∈ (x.addConsumer id).consumers := by
  unfold addConsumer
  split
  · next h => exact ⟨.refl x, by simpa using h⟩
  · exact ⟨⟨rfl, rfl, rfl, List.prefix_append _ _, fun _ => rfl, .inl rfl⟩, by simp⟩

namespace OperatorKind

variable {kind : OperatorKind} {t : SymbolTable} {label : String} {x x' s s' : Tensor}

/-- A rule reads nothing of its operands but their shapes. -/
theorem obligations_congr (hx : x'.shape = x.shape) (hs : s'.shape = s.shape) :
    kind.obligations ⟨label, some x', some s'⟩ = kind.obligations ⟨label, some x, some s⟩ := by
  cases kind <;> simp only [obligations, Operands.require, Operands.requireAxes,
    Operands.mismatch, Computation.ok_bind, hx, hs]

/-- The shape of a result depends on nothing of the operands but their shapes. -/
theorem resultShape_congr (hx : x'.shape = x.shape) (hs : s'.shape = s.shape) :
    kind.resultShape t ⟨label, some x', some s'⟩ =
      kind.resultShape t ⟨label, some x, some s⟩ := by
  cases kind <;> simp only [resultShape, Operands.require, Computation.ok_bind, hx, hs]

end OperatorKind

namespace Graph

variable {g h : Graph}

/-! ## Coherent graphs -/

/-- The operator was applied as `a` says: its operands `x` and `s` list it, its result `y` names it
as producer and is younger than both, and the shape of the result was inferred under a table that
knew no more than the graph does now. -/
structure Attached (g : Graph) (op : Operator) (a : Application) (x s y : Tensor) : Prop where
  data : g.tensors[a.data]? = some x
  parameter : g.tensors[a.parameter]? = some s
  result : g.tensors[a.result]? = some y
  data_consumers : op.id ∈ x.consumers
  parameter_consumers : op.id ∈ s.consumers
  producer : y.producer = some op.id
  data_lt : a.data < a.result
  parameter_lt : a.parameter < a.result
  shape : ∃ t : SymbolTable, t.Extends g.symbols ∧
    op.kind.resultShape t ⟨op.label, some x, some s⟩ = .ok y.shape

/-- Handles are positions, and applications are mirrored by the edges of tensors. -/
structure Coherent (g : Graph) : Prop where
  tensor_id : ∀ (i : TensorId) (x : Tensor), g.tensors[i]? = some x → x.id = i
  operator_id : ∀ (i : OperatorId) (op : Operator), g.operators[i]? = some op → op.id = i
  attached : ∀ op ∈ g.operators, ∀ a, op.application = some a → ∃ x s y, g.Attached op a x s y

/-- An application stays attached as the graph grows, to tensors of the same shapes. -/
theorem Attached.grows {op op' : Operator} {a : Application} {x s y : Tensor}
    (ha : g.Attached op a x s y) (hg : g.Grows h) (hop : op.Grows op') (a' : Application)
    (happ : a'.data = a.data ∧ a'.parameter = a.parameter ∧ a'.result = a.result) :
    ∃ x' s' y', h.Attached op' a' x' s' y' ∧ x.Grows x' ∧ s.Grows s' := by
  obtain ⟨hd, hp, hr⟩ := happ
  obtain ⟨x', hx', hxg⟩ := hg.tensors _ _ ha.data
  obtain ⟨s', hs', hsg⟩ := hg.tensors _ _ ha.parameter
  obtain ⟨y', hy', hyg⟩ := hg.tensors _ _ ha.result
  have hxs : x'.shape = x.shape := hxg.shape (.inr (List.ne_nil_of_mem ha.data_consumers))
  have hss : s'.shape = s.shape := hsg.shape (.inr (List.ne_nil_of_mem ha.parameter_consumers))
  have hys : y'.shape = y.shape := hyg.shape (.inl (by simp [ha.producer]))
  obtain ⟨t, ht, hshape⟩ := ha.shape
  refine ⟨x', s', y',
    ⟨hd ▸ hx', hp ▸ hs', hr ▸ hy', ?_, ?_, ?_, ?_, ?_, t, ht.trans hg.symbols, ?_⟩,
    hxg, hsg⟩
  · exact hop.id ▸ hxg.consumers.subset ha.data_consumers
  · exact hop.id ▸ hsg.consumers.subset ha.parameter_consumers
  · rw [hyg.producer, ha.producer, hop.id]
  · rw [hd, hr]
    exact ha.data_lt
  · rw [hp, hr]
    exact ha.parameter_lt
  · rw [hop.kind, OperatorKind.resultShape_congr hxs hss, hys, ← hshape]
    simp [Operator.label, hop.name, hop.kind]

/-! ## Steps let graphs grow -/

theorem tensors_setTensor {id : TensorId} {x y : Tensor} (hx : g.tensors[id]? = some x)
    (i : TensorId) :
    (g.setTensor id y).tensors[i]? = if id = i then some y else g.tensors[i]? := by
  split
  · next hi =>
    subst hi
    exact List.getElem?_set_self (List.getElem?_eq_some_iff.1 hx).1
  · next hi => exact List.getElem?_set_ne hi

/-- A graph in which a tensor is replaced by what it can grow to has grown. -/
theorem grows_setTensor {id : TensorId} {x y : Tensor} (hx : g.tensors[id]? = some x)
    (hxy : x.Grows y) : g.Grows (g.setTensor id y) := by
  refine ⟨.refl _, fun i z hz => ?_, fun i op hop => ⟨op, hop, .refl op⟩⟩
  rw [tensors_setTensor hx]
  split
  · next hi =>
    subst hi
    cases hx.symm.trans hz
    exact ⟨y, rfl, hxy⟩
  · exact ⟨z, hz, .refl z⟩

theorem Step.grows (hs : g.Step h) (hg : g.Coherent) : g.Grows h := by
  cases hs with
  | symbol label =>
    exact ⟨g.symbols.extends_create label, fun i x hx => ⟨x, hx, .refl x⟩,
      fun i op hop => ⟨op, hop, .refl op⟩⟩
  | @tensor x hid hprod hcons =>
    refine ⟨.refl _, fun i z hz => ⟨z, ?_, .refl z⟩, fun i op hop => ⟨op, hop, .refl op⟩⟩
    rw [List.getElem?_append_left (List.getElem?_eq_some_iff.1 hz).1, hz]
  | @operator op hid happ =>
    refine ⟨.refl _, fun i x hx => ⟨x, hx, .refl x⟩, fun i op' hop' => ⟨op', ?_, .refl op'⟩⟩
    rw [List.getElem?_append_left (List.getElem?_eq_some_iff.1 hop').1, hop']
  | @output id x hx hrole =>
    refine grows_setTensor hx ⟨rfl, rfl, rfl, List.prefix_refl _, fun _ => rfl, ?_⟩
    rcases hrole with hrole | hrole
    · exact .inr ⟨hrole, rfl⟩
    · exact .inl hrole.symm
  | @relabel id x target shape hx hprod hcons hshape =>
    exact grows_setTensor hx ⟨rfl, rfl, rfl, List.prefix_refl _,
      fun hconn => absurd hconn (by simp [Tensor.IsConnected, hprod, hcons]), .inl rfl⟩
  | @attach id op data parameter x s obligations shape hop happ hx hs hobl hten hshape =>
    have hdata := (List.getElem?_eq_some_iff.1 hx).1
    have hparam := (List.getElem?_eq_some_iff.1 hs).1
    refine ⟨.refl _, fun i z hz => ?_, fun i op' hop' => ?_⟩
    · have hi : i ≠ g.tensors.length := Nat.ne_of_lt (List.getElem?_eq_some_iff.1 hz).1
      rw [tensors_attach hdata hparam, if_neg hi, hz, Option.map_some]
      refine ⟨_, rfl, ?_⟩
      split
      · exact (z.grows_addConsumer op.id).1
      · exact .refl z
    · rw [operators_attach]
      split
      · next hi =>
        -- The handle of the operator is its position, so this is the operator that is applied.
        cases hg.operator_id _ _ hop
        subst hi
        cases hop.symm.trans hop'
        rw [hop, Option.map_some]
        exact ⟨_, rfl, rfl, rfl, rfl, fun a ha => by simp [happ] at ha⟩
      · exact ⟨op', hop', .refl op'⟩
  | @settle t h ht hsettle =>
    obtain ⟨operators, hops, rfl⟩ := settle_eq_ok.1 hsettle
    refine ⟨ht, fun i x hx => ⟨x, hx, .refl x⟩, fun i op hop => ?_⟩
    obtain ⟨op', hop', -, rfl⟩ := Computation.exists_result hops hop
    exact ⟨_, hop', op.grows_withPending List.filter_sublist⟩

/-! ## Steps keep graphs coherent -/

/-- An operator that was applied before a step is attached after it. -/
theorem Coherent.attached_grown {op op' : Operator} {a' : Application} (hg : g.Coherent)
    (hgrow : g.Grows h) (hmem : op ∈ g.operators) (happ : op.isApplied = true)
    (hop : op.Grows op') (ha' : op'.application = some a') : ∃ x s y, h.Attached op' a' x s y := by
  obtain ⟨a, ha⟩ := Option.isSome_iff_exists.1 happ
  obtain ⟨x, s, y, hatt⟩ := hg.attached op hmem a ha
  obtain ⟨pending, hpend, -⟩ := hop.application a ha
  cases hpend.symm.trans ha'
  obtain ⟨x', s', y', hatt', -, -⟩ := hatt.grows hgrow hop { a with pending } ⟨rfl, rfl, rfl⟩
  exact ⟨x', s', y', hatt'⟩

/-- An operator that a step leaves alone is attached after it, if it was applied. -/
theorem Coherent.attached_same {op : Operator} {a : Application} (hg : g.Coherent)
    (hgrow : g.Grows h) (hmem : op ∈ g.operators) (ha : op.application = some a) :
    ∃ x s y, h.Attached op a x s y :=
  hg.attached_grown hgrow hmem (by simp [Operator.isApplied, ha]) (.refl op) ha

/-- A new last element of a list at a position. -/
theorem getElem?_concat_cases {α : Type} {items : List α} {a b : α} {i : Nat}
    (hb : (items ++ [a])[i]? = some b) : items[i]? = some b ∨ i = items.length ∧ b = a := by
  rcases Nat.lt_trichotomy i items.length with hi | rfl | hi
  · rw [List.getElem?_append_left hi] at hb
    exact .inl hb
  · rw [List.getElem?_concat_length] at hb
    exact .inr ⟨rfl, (Option.some.inj hb).symm⟩
  · rw [List.getElem?_eq_none (by simp; omega)] at hb
    cases hb

/-- A tensor can be replaced by one with the same handle, if the graph grows in that way. -/
theorem Coherent.setTensor {id : TensorId} {x y : Tensor} (hg : g.Coherent)
    (hx : g.tensors[id]? = some x) (hid : y.id = x.id) (hgrow : g.Grows (g.setTensor id y)) :
    (g.setTensor id y).Coherent := by
  refine ⟨fun i z hz => ?_, hg.operator_id, fun op hop a ha => hg.attached_same hgrow hop ha⟩
  rw [tensors_setTensor hx] at hz
  split at hz
  · next hi =>
    cases hz
    rw [hid, hg.tensor_id id x hx, hi]
  · exact hg.tensor_id i z hz

/-- The operator that is applied is attached to its operands and to the new tensor. -/
theorem attached_attach {op : Operator} {data parameter : TensorId} {x s : Tensor} {shape : Shape}
    {pending : List Obligation} (hx : g.tensors[data]? = some x)
    (hs : g.tensors[parameter]? = some s)
    (hshape : op.kind.resultShape g.symbols ⟨op.label, some x, some s⟩ = .ok shape) :
    (g.attach op data parameter shape pending).Attached
      { op with application := some ⟨data, parameter, g.tensors.length, pending⟩ }
      ⟨data, parameter, g.tensors.length, pending⟩ (x.addConsumer op.id) (s.addConsumer op.id)
      ⟨g.tensors.length, op.name ++ "_" ++ op.kind.resultSlot, .intermediate, shape, some op.id,
        []⟩ := by
  have hdata := (List.getElem?_eq_some_iff.1 hx).1
  have hparam := (List.getElem?_eq_some_iff.1 hs).1
  refine ⟨?_, ?_, ?_, ?_, ?_, rfl, hdata, hparam, g.symbols, .refl _, ?_⟩
  · exact tensors_attach_operand hdata hparam hx (.inl rfl)
  · exact tensors_attach_operand hdata hparam hs (.inr rfl)
  · rw [tensors_attach hdata hparam, if_pos rfl]
  · exact (x.grows_addConsumer op.id).2
  · exact (s.grows_addConsumer op.id).2
  · rw [OperatorKind.resultShape_congr (x.shape_addConsumer _) (s.shape_addConsumer _)]
    exact hshape

/-- After an application, an operator is the one that was applied or one from before. -/
theorem Coherent.mem_attach {op op' : Operator} {id : OperatorId} {data parameter : TensorId}
    {shape : Shape} {pending : List Obligation} (hg : g.Coherent)
    (hop : g.operators[id]? = some op)
    (hmem : op' ∈ (g.attach op data parameter shape pending).operators) :
    op' = { op with application := some ⟨data, parameter, g.tensors.length, pending⟩ } ∨
      op' ∈ g.operators := by
  obtain ⟨i, hi⟩ := List.getElem?_of_mem hmem
  rw [operators_attach] at hi
  split at hi
  · next hid =>
    -- The handle of the operator is its position, so this is the operator that is applied.
    cases hg.operator_id _ _ hop
    subst hid
    rw [hop, Option.map_some] at hi
    exact .inl (Option.some.inj hi).symm
  · exact .inr (List.mem_of_getElem? hi)

theorem Step.coherent (hs : g.Step h) (hg : g.Coherent) : h.Coherent := by
  have hgrow := hs.grows hg
  cases hs with
  | symbol label =>
    exact ⟨hg.tensor_id, hg.operator_id,
      fun op hop a ha => hg.attached_same hgrow hop ha⟩
  | @tensor x hid hprod hcons =>
    refine ⟨fun i z hz => ?_, hg.operator_id, fun op hop a ha => hg.attached_same hgrow hop ha⟩
    rcases getElem?_concat_cases hz with hz | ⟨rfl, rfl⟩
    · exact hg.tensor_id i z hz
    · exact hid
  | @operator op hid happ =>
    refine ⟨hg.tensor_id, fun i op' hop' => ?_, fun op' hop' a ha => ?_⟩
    · rcases getElem?_concat_cases hop' with hop' | ⟨rfl, rfl⟩
      · exact hg.operator_id i op' hop'
      · exact hid
    · rcases List.mem_append.1 hop' with hop' | hop'
      · exact hg.attached_same hgrow hop' ha
      · cases List.mem_singleton.1 hop'
        rw [happ] at ha
        cases ha
  | output hx hrole => exact hg.setTensor hx rfl hgrow
  | relabel hx hprod hcons hshape => exact hg.setTensor hx rfl hgrow
  | @attach id op data parameter x s obligations shape hop happ hx hs hobl hten hshape =>
    have hdata := (List.getElem?_eq_some_iff.1 hx).1
    have hparam := (List.getElem?_eq_some_iff.1 hs).1
    refine ⟨fun i z hz => ?_, fun i op' hop' => ?_, fun op' hop' a ha => ?_⟩
    · rw [tensors_attach hdata hparam] at hz
      split at hz
      · cases hz
        rfl
      · obtain ⟨z₀, hz₀, rfl⟩ := Option.map_eq_some_iff.1 hz
        have hid := hg.tensor_id i z₀ hz₀
        split
        · rw [(z₀.grows_addConsumer op.id).1.id, hid]
        · exact hid
    · rw [operators_attach] at hop'
      split at hop'
      · obtain ⟨op₀, hop₀, rfl⟩ := Option.map_eq_some_iff.1 hop'
        exact hg.operator_id i op₀ hop₀
      · exact hg.operator_id i op' hop'
    · rcases hg.mem_attach hop hop' with rfl | hop'
      · cases ha
        exact ⟨_, _, _, attached_attach hx hs hshape⟩
      · exact hg.attached_same hgrow hop' ha
  | @settle t h ht hsettle =>
    obtain ⟨operators, hops, rfl⟩ := settle_eq_ok.1 hsettle
    refine ⟨hg.tensor_id, fun i op' hop' => ?_, fun op' hop' a ha => ?_⟩
    · obtain ⟨op, hop, -, rfl⟩ := Computation.exists_item hops hop'
      exact hg.operator_id i op hop
    · obtain ⟨op, hop, -, rfl⟩ := Computation.exists_item_of_mem hops hop'
      obtain ⟨b, hb, -⟩ := Option.map_eq_some_iff.1 ha
      exact hg.attached_grown hgrow hop (by simp [Operator.isApplied, hb])
        (op.grows_withPending List.filter_sublist) ha

/-- Every reachable graph is coherent. -/
theorem Reachable.coherent (hg : g.Reachable) : g.Coherent :=
  hg.induction (P := Coherent) ⟨nofun, nofun, nofun⟩ fun hg hs => hs.coherent hg

/-- Distinct tensors have distinct handles. -/
theorem Coherent.nodup_ids (hg : g.Coherent) : (g.tensors.map (·.id)).Nodup := by
  have hids : g.tensors.map (·.id) = List.range g.tensors.length := by
    refine List.ext_getElem? fun i => ?_
    rw [List.getElem?_map]
    rcases Nat.lt_or_ge i g.tensors.length with hi | hi
    · have hx := List.getElem?_eq_getElem hi
      rw [hx, List.getElem?_range hi, Option.map_some, hg.tensor_id i _ hx]
    · rw [List.getElem?_eq_none hi, List.getElem?_eq_none (by simpa using hi), Option.map_none]
  rw [hids]
  exact List.nodup_range

/-- A tensor stands at its handle. -/
theorem Coherent.tensor_eq_some (hg : g.Coherent) {x : Tensor} (hx : x ∈ g.tensors) :
    g.tensors[x.id]? = some x := by
  obtain ⟨i, hi⟩ := List.getElem?_of_mem hx
  rwa [hg.tensor_id i x hi]

/-- An operator stands at its handle. -/
theorem Coherent.operator_eq_some (hg : g.Coherent) {op : Operator} (hop : op ∈ g.operators) :
    g.operators[op.id]? = some op := by
  obtain ⟨i, hi⟩ := List.getElem?_of_mem hop
  rwa [hg.operator_id i op hi]

/-- Tensors with one handle are one tensor. -/
theorem Coherent.eq_of_id (hg : g.Coherent) {x y : Tensor} (hx : x ∈ g.tensors)
    (hy : y ∈ g.tensors) (hid : x.id = y.id) : x = y := by
  have hx := hg.tensor_eq_some hx
  rw [hid, hg.tensor_eq_some hy] at hx
  exact (Option.some.inj hx).symm

end Graph

end TensorLowering
