import TensorLowering.Proofs.Graph.Occurrence

/-!
# Graphs that agree

Two graphs agree under a table when they have the same nodes and edges, and extents that have the
same values under the table; they may differ in the form of their extents, in what their own tables
know and in the obligations that are still open (`Graph.Agree`). A graph is fulfilled under a table
when every obligation that its rules ask holds there (`Graph.Fulfilled`). A step of construction
that leads to a fulfilled graph succeeds on every graph that agrees, and leads to graphs that agree
(`Graph.Agree.run`): rules read nothing but axes and extents, and their obligations compare the
values of extents.
-/

namespace TensorLowering

/-! ## Agreement of extents and shapes -/

/-- Both extents have a value under the table, and it is the same. -/
def SymbolTable.Agree (u : SymbolTable) (a b : Extent) : Prop :=
  ∃ n, u.Evaluates a n ∧ u.Evaluates b n

/-- The shapes have one order, and extents that agree. -/
structure Shape.Agree (u : SymbolTable) (r s : Shape) : Prop where
  order : s.order = r.order
  extents : List.Forall₂ u.Agree r.extents s.extents

section
variable {u t t' : SymbolTable} {a b c : Extent} {r s q : Shape} {axis : Axis} {n : Int64}

theorem SymbolTable.Agree.symm (h : u.Agree a b) : u.Agree b a := by
  obtain ⟨n, ha, hb⟩ := h
  exact ⟨n, hb, ha⟩

theorem SymbolTable.Agree.trans (h : u.Agree a b) (h' : u.Agree b c) : u.Agree a c := by
  obtain ⟨n, ha, hb⟩ := h
  obtain ⟨m, hb', hc⟩ := h'
  cases hb.unique hb'
  exact ⟨n, ha, hc⟩

/-- Whatever value one extent has, the other has. -/
theorem SymbolTable.Agree.evaluates (h : u.Agree a b) (ha : u.Evaluates a n) :
    u.Evaluates b n := by
  obtain ⟨m, ha', hb⟩ := h
  cases ha.unique ha'
  exact hb

/-- Extents that agree still do after simplifications under tables that know less. -/
theorem SymbolTable.Agree.simplify (h : u.Agree a b) (ht : t.Extends u) (ht' : t'.Extends u) :
    u.Agree (t.simplify a) (t'.simplify b) := by
  obtain ⟨n, ha, hb⟩ := h
  exact ⟨n, ht.evaluates_simplify ha, ht'.evaluates_simplify hb⟩

theorem Shape.Agree.symm (h : r.Agree u s) : s.Agree u r :=
  ⟨h.order.symm, (h.extents.imp fun _ _ hab => hab.symm).flip⟩

theorem Shape.Agree.trans (h : r.Agree u s) (h' : s.Agree u q) : r.Agree u q :=
  ⟨h'.order.trans h.order, Computation.forall₂_trans h.extents h'.extents fun _ _ _ => .trans⟩

/-- Shapes that agree have extents that agree along every axis. -/
theorem Shape.Agree.extent (h : r.Agree u s) (ha : r.extent axis = .ok a) :
    ∃ b, s.extent axis = .ok b ∧ u.Agree a b := by
  obtain ⟨i, hi, hai⟩ := Shape.extent_eq_ok.1 ha
  obtain ⟨b, hb, hab⟩ := Computation.exists_result h.extents hai
  exact ⟨b, Shape.extent_eq_ok.2 ⟨i, h.order ▸ hi, hb⟩, hab⟩

/-- Shapes that agree are relabelled to shapes that agree. -/
theorem Shape.Agree.relabel {subject : Subject} {target : Order} {r' : Shape} (h : r.Agree u s)
    (hr : r.relabel subject target = .ok r') :
    ∃ s', s.relabel subject target = .ok s' ∧ r'.Agree u s' := by
  obtain ⟨hsame, horder, hextents⟩ := Shape.relabel_eq_ok.1 hr
  obtain ⟨extents, hextents', hagree⟩ :=
    Computation.exists_pointwise hextents fun axis a ha => h.extent ha
  have hlength : extents.length = target.rank := hextents'.length_eq.symm
  exact ⟨⟨target, extents, hlength⟩, Shape.relabel_eq_ok.2 ⟨h.order ▸ hsame, rfl, hextents'⟩,
    horder.symm, hagree⟩

/-- The extent of a result follows the extent of the data: no step of its formula absorbs it. -/
theorem Deconvolution.evaluates_outputExtent {ksize stride padding : UInt64} (hstride : stride ≠ 0)
    (h : u.Agree a b) (ha : u.Evaluates (outputExtent a ksize stride padding) n) :
    u.Evaluates (outputExtent b ksize stride padding) n := by
  have hless : ∀ x, u.Evaluates (a - .value 1) x → u.Evaluates (b - .value 1) x :=
    fun _ => SymbolTable.Evaluates.combine_congr (fun _ => h.evaluates) (.inl nofun)
  have hscaled : ∀ x, u.Evaluates ((a - .value 1) * .ofWord stride) x →
      u.Evaluates ((b - .value 1) * .ofWord stride) x :=
    fun _ => SymbolTable.Evaluates.combine_congr hless (.inr ⟨_, toInt64_ne_zero hstride, rfl⟩)
  have hcropped : ∀ x,
      u.Evaluates ((a - .value 1) * .ofWord stride - .ofWord padding * .value 2) x →
        u.Evaluates ((b - .value 1) * .ofWord stride - .ofWord padding * .value 2) x :=
    fun _ => SymbolTable.Evaluates.combine_congr hscaled (.inl nofun)
  exact SymbolTable.Evaluates.combine_congr hcropped (.inl nofun) ha

end

/-! ## Rules on operands that agree -/

namespace OperatorKind

variable {u t t' : SymbolTable} {kind : OperatorKind} {label : String} {x x' s s' : Tensor}
  {os : List Obligation} {shape : Shape}

/-- When the obligations of a rule hold, the rule asks what holds of all operands that agree. -/
theorem exists_obligations (hx : x.shape.Agree u x'.shape) (hs : s.shape.Agree u s'.shape)
    (hos : kind.obligations ⟨label, some x, some s⟩ = .ok os)
    (hholds : ∀ o ∈ os, o.relation.Holds u) :
    ∃ os', kind.obligations ⟨label, some x', some s'⟩ = .ok os' ∧
      ∀ o ∈ os', o.relation.Holds u := by
  have hequal : ∀ {a a' b b' : Extent}, u.Agree a a' → u.Agree b b' →
      (∃ n, u.Evaluates a n ∧ u.Evaluates b n) → ∃ n, u.Evaluates a' n ∧ u.Evaluates b' n := by
    rintro a a' b b' ha hb ⟨n, han, hbn⟩
    exact ⟨n, ha.evaluates han, hb.evaluates hbn⟩
  cases kind with
  | axiswiseScale axis =>
    obtain ⟨hcontains, hvector, scaled, input, hscaled, hinput, rfl⟩ :=
      AxiswiseScale.obligations_eq_ok.1 hos
    obtain ⟨scaled', hscaled', hsagree⟩ := hs.extent hscaled
    obtain ⟨input', hinput', hxagree⟩ := hx.extent hinput
    refine ⟨_, AxiswiseScale.obligations_eq_ok.2 ⟨hx.order ▸ hcontains, hs.order ▸ hvector,
      scaled', input', hscaled', hinput', rfl⟩, ?_⟩
    simp only [List.mem_singleton, forall_eq] at hholds ⊢
    exact hequal hsagree hxagree hholds
  | deconvolution p =>
    obtain ⟨⟨hximage, hsimage⟩, height, width, channel, kernelHeight, kernelWidth, kernelChannel,
      hheight, hwidth, hchannel, hkh, hkw, hkc, rfl⟩ := Deconvolution.obligations_eq_ok.1 hos
    obtain ⟨height', hheight', hh⟩ := hx.extent hheight
    obtain ⟨width', hwidth', hw⟩ := hx.extent hwidth
    obtain ⟨channel', hchannel', hc⟩ := hx.extent hchannel
    obtain ⟨kernelHeight', hkh', hkha⟩ := hs.extent hkh
    obtain ⟨kernelWidth', hkw', hkwa⟩ := hs.extent hkw
    obtain ⟨kernelChannel', hkc', hkca⟩ := hs.extent hkc
    refine ⟨_, Deconvolution.obligations_eq_ok.2 ⟨⟨hx.order ▸ hximage, hs.order ▸ hsimage⟩, height',
      width', channel', kernelHeight', kernelWidth', kernelChannel', hheight', hwidth', hchannel',
      hkh', hkw', hkc', rfl⟩, ?_⟩
    have hword : ∀ n, u.Agree (.ofWord n) (.ofWord n) := fun n =>
      ⟨_, SymbolTable.evaluates_value.2 rfl, SymbolTable.evaluates_value.2 rfl⟩
    simp only [Deconvolution.conditions, List.forall_mem_cons, List.not_mem_nil, false_implies,
      implies_true, and_true] at hholds ⊢
    obtain ⟨hkhe, hkwe, hkce, ⟨m, hm, hmpos⟩, ⟨n, hn, hnpos⟩⟩ := hholds
    exact ⟨hequal hkha (hword _) hkhe, hequal hkwa (hword _) hkwe, hequal hkca hc hkce,
      ⟨m, Deconvolution.evaluates_outputExtent p.stride_pos.1 hh hm, hmpos⟩,
      ⟨n, Deconvolution.evaluates_outputExtent p.stride_pos.2 hw hn, hnpos⟩⟩

/-- When the obligations of a rule hold, the rule infers for operands that agree, under any tables
that know less, results that agree. -/
theorem exists_resultShape (ht : t.Extends u) (ht' : t'.Extends u)
    (hx : x.shape.Agree u x'.shape) (hs : s.shape.Agree u s'.shape)
    (hos : kind.obligations ⟨label, some x, some s⟩ = .ok os)
    (hholds : ∀ o ∈ os, o.relation.Holds u)
    (hshape : kind.resultShape t ⟨label, some x, some s⟩ = .ok shape) :
    ∃ shape', kind.resultShape t' ⟨label, some x', some s'⟩ = .ok shape' ∧
      shape.Agree u shape' := by
  cases kind with
  | axiswiseScale axis =>
    cases hshape
    exact ⟨x'.shape, rfl, hx⟩
  | deconvolution p =>
    obtain ⟨batch, height, width, channel, hbatch, hheight, hwidth, hchannel, hshape⟩ :=
      Deconvolution.resultShape_eq_ok.1 hshape
    obtain ⟨-, height₀, width₀, channel₀, kernelHeight, kernelWidth, kernelChannel, hheight₀,
      hwidth₀, -, -, -, -, rfl⟩ := Deconvolution.obligations_eq_ok.1 hos
    cases hheight.symm.trans hheight₀
    cases hwidth.symm.trans hwidth₀
    obtain ⟨batch', hbatch', hn⟩ := hx.extent hbatch
    obtain ⟨height', hheight', hh⟩ := hx.extent hheight
    obtain ⟨width', hwidth', hw⟩ := hx.extent hwidth
    obtain ⟨channel', hchannel', hc⟩ := hs.extent hchannel
    simp only [Deconvolution.conditions, List.forall_mem_cons, List.not_mem_nil, false_implies,
      implies_true, and_true] at hholds
    -- The result has a height and a width because they are asked to be positive.
    obtain ⟨-, -, -, ⟨i, hi, -⟩, ⟨j, hj, -⟩⟩ := hholds
    have hhout : u.Agree (Deconvolution.outputExtent height p.ksize.h p.stride.h p.padding.h)
        (Deconvolution.outputExtent height' p.ksize.h p.stride.h p.padding.h) :=
      ⟨i, hi, Deconvolution.evaluates_outputExtent p.stride_pos.1 hh hi⟩
    have hwout : u.Agree (Deconvolution.outputExtent width p.ksize.w p.stride.w p.padding.w)
        (Deconvolution.outputExtent width' p.ksize.w p.stride.w p.padding.w) :=
      ⟨j, hj, Deconvolution.evaluates_outputExtent p.stride_pos.2 hw hj⟩
    have hagree : Shape.Agree u
        ⟨.nhwc, [t.simplify batch,
          t.simplify (Deconvolution.outputExtent height p.ksize.h p.stride.h p.padding.h),
          t.simplify (Deconvolution.outputExtent width p.ksize.w p.stride.w p.padding.w),
          t.simplify channel], rfl⟩
        ⟨.nhwc, [t'.simplify batch',
          t'.simplify (Deconvolution.outputExtent height' p.ksize.h p.stride.h p.padding.h),
          t'.simplify (Deconvolution.outputExtent width' p.ksize.w p.stride.w p.padding.w),
          t'.simplify channel'], rfl⟩ :=
      ⟨rfl, .cons (hn.simplify ht ht') (.cons (hhout.simplify ht ht')
        (.cons (hwout.simplify ht ht') (.cons (hc.simplify ht ht') .nil)))⟩
    obtain ⟨shape', hshape', hfinal⟩ := hagree.relabel hshape
    exact ⟨shape', Deconvolution.resultShape_eq_ok.2 ⟨batch', height', width', channel', hbatch',
      hheight', hwidth', hchannel', hx.order ▸ hshape'⟩, hfinal⟩

end OperatorKind

/-! ## Agreement of graphs -/

/-- The tensors are the same up to extents that agree. -/
structure Tensor.Agree (u : SymbolTable) (x y : Tensor) : Prop where
  id : y.id = x.id
  name : y.name = x.name
  role : y.role = x.role
  shape : x.shape.Agree u y.shape
  producer : y.producer = x.producer
  consumers : y.consumers = x.consumers

/-- The operators are the same up to open obligations. -/
def Operator.Agree (op op' : Operator) : Prop := op'.withPending [] = op.withPending []

/-- The graphs have the same nodes and edges, up to open obligations and extents that agree. -/
structure Graph.Agree (u : SymbolTable) (g h : Graph) : Prop where
  tensors : List.Forall₂ (Tensor.Agree u) g.tensors h.tensors
  operators : List.Forall₂ Operator.Agree g.operators h.operators

section
variable {u : SymbolTable} {x y z : Tensor} {op op' : Operator}

theorem Tensor.Agree.symm (h : x.Agree u y) : y.Agree u x :=
  ⟨h.id.symm, h.name.symm, h.role.symm, h.shape.symm, h.producer.symm, h.consumers.symm⟩

theorem Tensor.Agree.trans (h : x.Agree u y) (h' : y.Agree u z) : x.Agree u z :=
  ⟨h'.id.trans h.id, h'.name.trans h.name, h'.role.trans h.role, h.shape.trans h'.shape,
    h'.producer.trans h.producer, h'.consumers.trans h.consumers⟩

theorem Tensor.Agree.addConsumer (h : x.Agree u y) (id : OperatorId) :
    (x.addConsumer id).Agree u (y.addConsumer id) := by
  unfold Tensor.addConsumer
  rw [h.consumers]
  split
  · exact h
  · exact ⟨h.id, h.name, h.role, h.shape, h.producer, rfl⟩

/-- Operators that have not been applied have no open obligations to differ in. -/
theorem Operator.Agree.eq_of_not_applied (h : op.Agree op') (hop : op.application = none) :
    op' = op := by
  obtain ⟨id, name, kind, application⟩ := op
  obtain ⟨id', name', kind', application'⟩ := op'
  cases hop
  cases application' with
  | none => exact h
  | some a => simp [Operator.Agree, withPending] at h

end

namespace Graph

variable {u : SymbolTable} {g h g' h' k : Graph} {op : Operator}

theorem Agree.symm (hgh : g.Agree u h) : h.Agree u g :=
  ⟨(hgh.tensors.imp fun _ _ hxy => hxy.symm).flip, (hgh.operators.imp fun _ _ => Eq.symm).flip⟩

theorem Agree.trans (hgh : g.Agree u h) (hhk : h.Agree u k) : g.Agree u k :=
  ⟨Computation.forall₂_trans hgh.tensors hhk.tensors fun _ _ _ => .trans,
    Computation.forall₂_trans hgh.operators hhk.operators fun _ _ _ hop hop' => hop'.trans hop⟩

/-- Bindings do not change what a graph agrees with. -/
theorem Narrows.agree (hn : g.Narrows g') (hgh : g.Agree u h) : g'.Agree u h := by
  refine ⟨hn.tensors ▸ hgh.tensors, Computation.forall₂_trans
    (R := fun op' op => ∃ pending, op' = op.withPending pending) hn.operators.flip hgh.operators ?_⟩
  rintro _ op op' ⟨pending, rfl⟩ hop
  rw [Operator.Agree, Operator.withPending_withPending]
  exact hop

/-- Graphs that agree still do when tensors that agree are put at one place. -/
theorem Agree.setTensor {x y : Tensor} (hgh : g.Agree u h) (hxy : x.Agree u y) (id : TensorId) :
    (g.setTensor id x).Agree u (h.setTensor id y) :=
  ⟨Computation.forall₂_set hgh.tensors hxy id, hgh.operators⟩

/-- Graphs that agree still do when an operator is applied in both. -/
theorem Agree.attach {data parameter : TensorId} {shape shape' : Shape}
    {pending pending' : List Obligation} (hgh : g.Agree u h) (hshape : shape.Agree u shape') :
    (g.attach op data parameter shape pending).Agree u
      (h.attach op data parameter shape' pending') := by
  have hlen : g.tensors.length = h.tensors.length := hgh.tensors.length_eq
  refine ⟨forall₂_attach hgh.tensors (fun _ _ hxy => hxy.addConsumer op.id)
    ⟨hlen.symm, rfl, rfl, hshape, rfl, rfl⟩,
    Computation.forall₂_modify hgh.operators (fun op₁ op₂ hop => ?_) op.id⟩
  obtain ⟨id₁, name₁, kind₁, application₁⟩ := op₁
  obtain ⟨id₂, name₂, kind₂, application₂⟩ := op₂
  simp only [Operator.Agree, Operator.withPending, Operator.mk.injEq] at hop
  obtain ⟨rfl, rfl, rfl, -⟩ := hop
  simp [Operator.Agree, Operator.withPending, hlen]

/-! ## Fulfilled graphs -/

/-- Every obligation that the rules ask of the operands holds under the table. -/
def Fulfilled (u : SymbolTable) (g : Graph) : Prop :=
  ∀ op ∈ g.operators, ∃ os, g.demands op = .ok os ∧ ∀ o ∈ os, o.relation.Holds u

/-- What an operator asks does not depend on what is still open. -/
theorem demands_withPending (g : Graph) (op : Operator) (pending : List Obligation) :
    g.demands (op.withPending pending) = g.demands op := by
  cases ha : op.application with
  | none => simp only [demands, Operator.withPending, ha, Option.map_none]
  | some a => simp only [demands, Operator.withPending, ha, Option.map_some, Operator.label]

/-- Graphs that agree are fulfilled together. -/
theorem Agree.fulfilled (hgh : g.Agree u h) (hg : g.Fulfilled u) : h.Fulfilled u := by
  intro op' hop'
  obtain ⟨op, hop, hagree⟩ := Computation.exists_item_of_mem hgh.operators hop'
  obtain ⟨os, hos, hholds⟩ := hg op hop
  rw [← h.demands_withPending op' [], hagree, h.demands_withPending]
  cases ha : op.application with
  | none =>
    simp only [demands, ha]
    exact ⟨[], rfl, fun _ ho => absurd ho List.not_mem_nil⟩
  | some a =>
    simp only [demands, ha, Computation.bind_eq_ok, tensor_eq_ok] at hos ⊢
    obtain ⟨x, hx, w, hw, hos⟩ := hos
    obtain ⟨x', hx', hxx'⟩ := Computation.exists_result hgh.tensors hx
    obtain ⟨w', hw', hww'⟩ := Computation.exists_result hgh.tensors hw
    obtain ⟨os', hos', hholds'⟩ :=
      OperatorKind.exists_obligations hxx'.shape hww'.shape hos hholds
    exact ⟨os', ⟨x', hx', w', hw', hos'⟩, hholds'⟩

/-- A graph is fulfilled if it grows to one that is. -/
theorem Fulfilled.of_grows (hh : h.Fulfilled u) (hg : g.Coherent) (hgrow : g.Grows h) :
    g.Fulfilled u := by
  intro op hop
  cases ha : op.application with
  | none =>
    simp only [demands, ha]
    exact ⟨[], rfl, fun _ ho => absurd ho List.not_mem_nil⟩
  | some a =>
    obtain ⟨i, hi⟩ := List.getElem?_of_mem hop
    obtain ⟨op', hop', hopg⟩ := hgrow.operators i op hi
    rw [← hg.demands_grown hgrow hop hopg (by simp [ha])]
    exact hh op' (List.mem_of_getElem? hop')

/-- A settled graph is fulfilled when its symbols are bound. -/
theorem Settled.fulfilled (hg : g.Settled) (hbound : g.symbols.Complete) :
    g.Fulfilled g.symbols := by
  intro op hop
  obtain ⟨os, hos, hten, -⟩ := hg op hop
  exact ⟨os, hos, fun o ho => (hten o ho).holds hbound⟩

/-- A settled graph has no open obligations when its symbols are bound. -/
theorem Settled.pending_eq_nil (hg : g.Settled) (hbound : g.symbols.Complete) :
    g.pending = [] := by
  refine List.flatMap_eq_nil_iff.2 fun op hop => List.map_eq_nil_iff.2 ?_
  obtain ⟨os, -, hten, hpending⟩ := hg op hop
  rw [hpending, List.filter_eq_nil_iff]
  intro o ho
  have hmet : o.check op.label g.symbols = .ok true :=
    Obligation.check_eq_true_iff.2 ((hten o ho).holds hbound)
  exact Bool.eq_false_iff.1 ((hten o ho).isOpen_eq_false_iff.2 hmet)

/-! ## Steps on graphs that agree -/

end Graph

/-- The step declares or connects nodes. -/
def Edit.builds : Edit → Bool
  | addSymbol _ | bind _ _ | revalidate => false
  | addTensor .. | addOperator .. | markOutput _ | changeOrder .. | apply .. => true

/-- The step applies an operator. -/
def Edit.applies : Edit → Bool
  | apply .. => true
  | _ => false

namespace Graph

variable {u : SymbolTable} {g h g' h' : Graph} {op : Operator}

/-- An application that leads to a fulfilled graph succeeds on every graph that agrees and has the
symbols that its tensors mention. -/
theorem Agree.run_apply {id : OperatorId} {inputs : List TensorId} (hgh : g.Agree u h)
    (hg : g.Coherent) (ht : g.symbols.Extends u) (ht' : h.symbols.Extends u)
    (hover : h.Over (· < h.symbols.size)) (hrun : (Edit.apply id inputs).run g = .ok g')
    (hf : g'.Fulfilled u) :
    ∃ h', (Edit.apply id inputs).run h = .ok h' ∧ g'.Agree u h' := by
  obtain ⟨_, hr, rfl⟩ := Computation.map_eq_ok.1 hrun
  obtain ⟨op, data, parameter, x, w, os, shape, rfl, hop, happ, hx, hw, hos, -, hshape, rfl⟩ :=
    apply_eq_ok.1 hr
  obtain ⟨op', hop', hagree⟩ := Computation.exists_result hgh.operators hop
  cases hagree.eq_of_not_applied happ
  obtain ⟨x', hx', hxx'⟩ := Computation.exists_result hgh.tensors hx
  obtain ⟨w', hw', hww'⟩ := Computation.exists_result hgh.tensors hw
  have hholds : ∀ o ∈ os, o.relation.Holds u := by
    obtain ⟨os', hos', hholds⟩ :=
      hf _ (List.mem_of_getElem? (operators_attach_self hop (hg.operator_id id op hop)))
    rw [demands_attach hx hw, hos] at hos'
    cases hos'
    exact hholds
  obtain ⟨os', hos', hholds'⟩ := OperatorKind.exists_obligations hxx'.shape hww'.shape hos hholds
  obtain ⟨shape', hshape', hagree'⟩ :=
    OperatorKind.exists_resultShape ht ht' hxx'.shape hww'.shape hos hholds hshape
  have hten : ∀ o ∈ os', o.Tenable op.label h.symbols := fun o ho =>
    ht'.tenable (OperatorKind.over_obligations (hover x' (List.mem_of_getElem? hx'))
      (hover w' (List.mem_of_getElem? hw')) hos' o ho) (hholds' o ho)
  exact ⟨_, Computation.map_eq_ok.2 ⟨_, apply_eq_ok.2 ⟨op, data, parameter, x', w', os', shape',
    rfl, hop', happ, hx', hw', hos', hten, hshape', rfl⟩, rfl⟩, hgh.attach hagree'⟩

/-- A step that declares or connects nodes and leads to a fulfilled graph succeeds on every graph
that agrees. The extents it declares must have values, and when it applies an operator, the table
must have the symbols that tensors mention. -/
theorem Agree.run {e : Edit} (hgh : g.Agree u h) (hg : g.Coherent) (ht : g.symbols.Extends u)
    (ht' : h.symbols.Extends u) (he : e.builds = true)
    (hext : ∀ a ∈ e.extents, ∃ n, u.Evaluates a n)
    (hover : e.applies = true → h.Over (· < h.symbols.size)) (hrun : e.run g = .ok g')
    (hf : g'.Fulfilled u) : ∃ h', e.run h = .ok h' ∧ g'.Agree u h' := by
  have hlen : g.tensors.length = h.tensors.length := hgh.tensors.length_eq
  cases e with
  | addSymbol | bind | revalidate => cases he
  | addTensor declaration name order extents =>
    obtain ⟨_, hr, rfl⟩ := Computation.map_eq_ok.1 hrun
    obtain ⟨hrank, rfl⟩ := addTensor_eq_ok.1 hr
    have hself : List.Forall₂ u.Agree extents extents :=
      List.forall₂_same.2 fun a ha => (hext a ha).imp fun n hn => ⟨hn, hn⟩
    exact ⟨_, Computation.map_eq_ok.2 ⟨_, addTensor_eq_ok.2 ⟨hrank, rfl⟩, rfl⟩,
      List.rel_append hgh.tensors (.cons ⟨hlen.symm, rfl, rfl, ⟨rfl, hself⟩, rfl, rfl⟩ .nil),
      hgh.operators⟩
  | addOperator name kind =>
    cases hrun
    refine ⟨_, rfl, hgh.tensors, List.rel_append hgh.operators (.cons ?_ .nil)⟩
    rw [Operator.Agree, hgh.operators.length_eq]
  | markOutput id =>
    obtain ⟨x, hx, hrole, rfl⟩ := markOutput_eq_ok.1 hrun
    obtain ⟨y, hy, hxy⟩ := Computation.exists_result hgh.tensors hx
    have hagree : Tensor.Agree u { x with role := .output } { y with role := .output } :=
      ⟨hxy.id, hxy.name, rfl, hxy.shape, hxy.producer, hxy.consumers⟩
    exact ⟨_, markOutput_eq_ok.2 ⟨y, hy, hxy.role ▸ hrole, rfl⟩, hgh.setTensor hagree id⟩
  | changeOrder id target =>
    obtain ⟨x, shape, hx, hprod, hcons, hshape, rfl⟩ := changeOrder_eq_ok.1 hrun
    obtain ⟨y, hy, hxy⟩ := Computation.exists_result hgh.tensors hx
    have hsubject : y.subject = x.subject := congrArg Subject.tensor hxy.name
    obtain ⟨shape', hshape', hrelabelled⟩ := hxy.shape.relabel hshape
    have hagree : Tensor.Agree u { x with shape } { y with shape := shape' } :=
      ⟨hxy.id, hxy.name, hxy.role, hrelabelled, hxy.producer, hxy.consumers⟩
    exact ⟨_, changeOrder_eq_ok.2 ⟨y, shape', hy, hxy.producer.trans hprod,
      hxy.consumers.trans hcons, hsubject ▸ hshape', rfl⟩, hgh.setTensor hagree id⟩
  | apply id inputs => exact hgh.run_apply hg ht ht' (hover rfl) hrun hf

/-- A symbol of a fulfilled graph can be bound to the value that it has in a larger table. -/
theorem Fulfilled.exists_bind {k : SymbolId} {n : Int64} (hf : g.Fulfilled u) (hs : g.Settled)
    (ht : g.symbols.Extends u) (hk : k < g.symbols.size) (hn : 0 ≤ n) (hu : u.value? k = some n) :
    ∃ h, g.bind k n = .ok h := by
  rcases ht.bind hk hn hu with hb | hb
  · exact ⟨g, Computation.bind_eq_ok.2 ⟨_, hb, rfl⟩⟩
  · have hassign := ht.assign hu
    suffices hsettle : ∃ h, g.settle (g.symbols.assign k n) = .ok h by
      obtain ⟨h, hh⟩ := hsettle
      exact ⟨h, Computation.bind_eq_ok.2 ⟨_, hb, hh⟩⟩
    have hten : ∀ op ∈ g.operators, ∀ o ∈ op.pending,
        o.Tenable op.label (g.symbols.assign k n) := by
      intro op hop o ho
      obtain ⟨os, hos, hten, hpending⟩ := hs op hop
      obtain ⟨os', hos', hholds⟩ := hf op hop
      cases hos.symm.trans hos'
      have hmem : o ∈ os := List.mem_of_mem_filter (hpending ▸ ho)
      refine hassign.tenable (fun a ha => ?_) (hholds o hmem)
      exact ((hten o hmem).over a ha).mono fun j hj => by rwa [SymbolTable.size_assign]
    exact ⟨_, settle_eq_ok.2 ⟨_, List.forall₂_map_right_iff.2
      (List.forall₂_same.2 fun op hop => ⟨hten op hop, rfl⟩), rfl⟩⟩

end Graph

end TensorLowering
