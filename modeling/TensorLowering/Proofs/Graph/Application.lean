import TensorLowering.Proofs.Graph.Consumers
import TensorLowering.Proofs.Graph.InPlace
import TensorLowering.Proofs.Rule

/-!
# When an application succeeds and what it leaves

A rule that accepts the axes of its operands always makes its obligations and infers a result
(`OperatorKind.accepts_iff`, `OperatorKind.Accepts.exists_resultShape`), and an obligation stands in
the way only if it is violated or cannot be evaluated (`Obligation.tenable_iff`). So an application
succeeds for exactly the candidates that are admitted (`Candidate.exists_of_apply`,
`Candidate.Admitted.exists_apply`). It appends one tensor, lists the operator as the last consumer
of each operand, also when both operands are one tensor, and leaves everything else alone
(`Candidate.Admitted.applied`). Done in place, one change after the other, it is all or nothing, and
so is binding a symbol (`Graph.Reachable.apply_exact`).
-/

namespace TensorLowering

/-! ## What a rule accepts -/

/-- An order has one axis, which is the given one. -/
theorem Order.axes_eq_singleton {o : Order} {axis : Axis} :
    o.rank = 1 ∧ o.contains axis = true ↔ o.axes = [axis] := by
  unfold rank
  rw [contains_iff]
  refine ⟨?_, ?_⟩
  · intro h
    obtain ⟨only, honly⟩ := List.length_eq_one_iff.1 h.1
    rw [honly, List.mem_singleton] at h
    rw [honly, h.2]
  · intro h
    simp [h]

/-- An image has an extent along each of its axes. -/
theorem Shape.exists_image_extents {s : Shape} (h : s.order.axes.Perm Order.nchw.axes) :
    ∃ batch channel height width, s.extent .n = .ok batch ∧ s.extent .c = .ok channel ∧
      s.extent .h = .ok height ∧ s.extent .w = .ok width := by
  have hextent : ∀ axis ∈ Order.nchw.axes, ∃ e, s.extent axis = .ok e :=
    fun axis haxis => exists_extent.2 (h.mem_iff.2 haxis)
  obtain ⟨batch, hbatch⟩ := hextent .n (by decide)
  obtain ⟨channel, hchannel⟩ := hextent .c (by decide)
  obtain ⟨height, hheight⟩ := hextent .h (by decide)
  obtain ⟨width, hwidth⟩ := hextent .w (by decide)
  exact ⟨batch, channel, height, width, hbatch, hchannel, hheight, hwidth⟩

namespace OperatorKind

variable {kind : OperatorKind} {label : String} {x s : Tensor} {t : SymbolTable}

/-- The operands have the axes that the rule demands: a scale is a vector along an axis of the data,
and both operands of a deconvolution are images. -/
def Accepts (x s : Shape) : OperatorKind → Prop
  | axiswiseScale axis => axis ∈ x.order.axes ∧ s.order.axes = [axis]
  | deconvolution _ => x.order.axes.Perm Order.nchw.axes ∧ s.order.axes.Perm Order.nchw.axes

/-- A rule makes its obligations exactly for operands with the right axes. -/
theorem accepts_iff : kind.Accepts x.shape s.shape ↔
    ∃ obligations, kind.obligations ⟨label, some x, some s⟩ = .ok obligations := by
  cases kind with
  | axiswiseScale axis =>
    simp only [Accepts, AxiswiseScale.obligations_eq_ok, Order.axes_eq_singleton]
    rw [Order.contains_iff]
    refine ⟨?_, ?_⟩
    · intro h
      obtain ⟨hx, hs⟩ := h
      have hmem : axis ∈ s.shape.order.axes := by
        rw [hs]
        exact List.mem_singleton_self axis
      obtain ⟨input, hinput⟩ := Shape.exists_extent.2 hx
      obtain ⟨scaled, hscaled⟩ := Shape.exists_extent.2 hmem
      exact ⟨_, hx, hs, scaled, input, hscaled, hinput, rfl⟩
    · intro h
      obtain ⟨_, hx, hs, -⟩ := h
      exact ⟨hx, hs⟩
  | deconvolution p =>
    simp only [Accepts, Deconvolution.obligations_eq_ok, Order.sameAxes_iff_perm]
    refine ⟨?_, ?_⟩
    · intro h
      obtain ⟨_, channel, height, width, -, hc, hh, hw⟩ := Shape.exists_image_extents h.1
      obtain ⟨_, kernelChannel, kernelHeight, kernelWidth, -, hkc, hkh, hkw⟩ :=
        Shape.exists_image_extents h.2
      exact ⟨_, h, height, width, channel, kernelHeight, kernelWidth, kernelChannel, hh, hw, hc,
        hkh, hkw, hkc, rfl⟩
    · intro h
      obtain ⟨_, haxes, -⟩ := h
      exact haxes

/-- A rule that accepts its operands infers a result. -/
theorem Accepts.exists_resultShape (h : kind.Accepts x.shape s.shape) (label : String)
    (t : SymbolTable) : ∃ shape, kind.resultShape t ⟨label, some x, some s⟩ = .ok shape := by
  cases kind with
  | axiswiseScale axis => exact ⟨x.shape, rfl⟩
  | deconvolution p =>
    obtain ⟨hx, hs⟩ := h
    obtain ⟨batch, _, height, width, hbatch, -, hheight, hwidth⟩ := Shape.exists_image_extents hx
    obtain ⟨channel, _, _, _, hchannel, -⟩ := Shape.exists_image_extents hs
    -- The result is an image too, so it can be laid out like the data.
    have hperm : Order.nhwc.axes.Perm x.shape.order.axes :=
      (show Order.nhwc.axes.Perm Order.nchw.axes by decide).trans hx.symm
    obtain ⟨shape, hshape⟩ := Shape.exists_relabel
      (s := ⟨.nhwc, [t.simplify batch,
        t.simplify (Deconvolution.outputExtent height p.ksize.h p.stride.h p.padding.h),
        t.simplify (Deconvolution.outputExtent width p.ksize.w p.stride.w p.padding.w),
        t.simplify channel], rfl⟩) .relabelling hperm
    exact ⟨shape, Deconvolution.resultShape_eq_ok.2
      ⟨batch, height, width, channel, hbatch, hheight, hwidth, hchannel, hshape⟩⟩

end OperatorKind

/-! ## What stands in the way -/

/-- The extents of the relation have values for which it does not hold. -/
def Relation.Violated (t : SymbolTable) : Relation → Prop
  | equal lhs rhs => ∃ a b, t.Evaluates lhs a ∧ t.Evaluates rhs b ∧ a ≠ b
  | positive extent => ∃ a, t.Evaluates extent a ∧ a ≤ 0

/-- No extent of the relation fails to evaluate, though symbols may be missing. -/
def Relation.Evaluable (t : SymbolTable) (r : Relation) : Prop :=
  ∀ e ∈ r.extents, ∃ value?, t.evaluate e = .ok value?

/-- An extent of the relation waits for a symbol. -/
def Relation.Undecided (t : SymbolTable) (r : Relation) : Prop :=
  ∃ e ∈ r.extents, t.evaluate e = .ok none

namespace Relation

variable {r : Relation} {t : SymbolTable} {lhs rhs extent : Extent}

theorem evaluable_equal : (equal lhs rhs).Evaluable t ↔
    (∃ a?, t.evaluate lhs = .ok a?) ∧ ∃ b?, t.evaluate rhs = .ok b? := by
  simp [Evaluable, extents]

theorem evaluable_positive : (positive extent).Evaluable t ↔ ∃ a?, t.evaluate extent = .ok a? := by
  simp [Evaluable, extents]

theorem undecided_equal : (equal lhs rhs).Undecided t ↔
    t.evaluate lhs = .ok none ∨ t.evaluate rhs = .ok none := by
  simp [Undecided, extents]

theorem undecided_positive : (positive extent).Undecided t ↔ t.evaluate extent = .ok none := by
  simp [Undecided, extents]

/-- What holds can be evaluated and is not violated. -/
theorem Holds.not_violated (h : r.Holds t) : r.Evaluable t ∧ ¬ r.Violated t := by
  cases r with
  | equal lhs rhs =>
    obtain ⟨n, hlhs, hrhs⟩ := h
    refine ⟨evaluable_equal.2 ⟨⟨_, hlhs⟩, ⟨_, hrhs⟩⟩, ?_⟩
    intro hviolated
    obtain ⟨a, b, ha, hb, hne⟩ := hviolated
    exact hne ((ha.unique hlhs).trans (hrhs.unique hb))
  | positive extent =>
    obtain ⟨n, hn, hpos⟩ := h
    refine ⟨evaluable_positive.2 ⟨_, hn⟩, ?_⟩
    intro hviolated
    obtain ⟨a, ha, hle⟩ := hviolated
    rw [ha.unique hn] at hle
    exact absurd hle (Int64.not_le.2 hpos)

/-- What waits for a symbol is not violated. -/
theorem Undecided.not_violated (h : r.Undecided t) : ¬ r.Violated t := by
  intro hviolated
  cases r with
  | equal lhs rhs =>
    obtain ⟨a, b, ha, hb, -⟩ := hviolated
    rcases undecided_equal.1 h with hopen | hopen
    · cases ha.symm.trans hopen
    · cases hb.symm.trans hopen
  | positive extent =>
    obtain ⟨a, ha, -⟩ := hviolated
    cases ha.symm.trans (undecided_positive.1 h)

/-- What can be evaluated and is not violated holds, unless it waits for a symbol. -/
theorem Evaluable.holds (h : r.Evaluable t) (hviolated : ¬ r.Violated t)
    (hdecided : ¬ r.Undecided t) : r.Holds t := by
  cases r with
  | equal lhs rhs =>
    rw [undecided_equal] at hdecided
    obtain ⟨⟨a?, ha⟩, ⟨b?, hb⟩⟩ := evaluable_equal.1 h
    cases a? with
    | none => exact absurd (.inl ha) hdecided
    | some a =>
      cases b? with
      | none => exact absurd (.inr hb) hdecided
      | some b =>
        have heq : a = b := by
          by_contra hne
          exact hviolated ⟨a, b, ha, hb, hne⟩
        exact ⟨a, ha, heq ▸ hb⟩
  | positive extent =>
    rw [undecided_positive] at hdecided
    obtain ⟨a?, ha⟩ := evaluable_positive.1 h
    cases a? with
    | none => exact absurd ha hdecided
    | some a =>
      have hpos : 0 < a := by
        by_contra hle
        exact hviolated ⟨a, ha, Int64.not_lt.1 hle⟩
      exact ⟨a, ha, hpos⟩

end Relation

namespace Obligation

variable {o : Obligation} {operator : String} {t : SymbolTable}

/-- Two extents are not compared when both can be evaluated and one of them has no value yet. -/
theorem check_equal_eq_false_iff {description : String} {lhs rhs : Extent} :
    check ⟨description, .equal lhs rhs⟩ operator t = .ok false ↔
      ∃ a? b?, t.evaluate lhs = .ok a? ∧ t.evaluate rhs = .ok b? ∧ (a? = none ∨ b? = none) := by
  simp only [check, Computation.bind_eq_ok]
  constructor
  · rintro ⟨a?, ha, b?, hb, h⟩
    refine ⟨a?, b?, ha, hb, ?_⟩
    cases a? with
    | none => exact .inl rfl
    | some a =>
      cases b? with
      | none => exact .inr rfl
      | some b =>
        dsimp only at h
        split at h <;> cases h
  · rintro ⟨a?, b?, ha, hb, hopen⟩
    refine ⟨a?, ha, b?, hb, ?_⟩
    rcases hopen with rfl | rfl
    · rfl
    · cases a? <;> rfl

/-- The sign of an extent is not checked when the extent has no value yet. -/
theorem check_positive_eq_false_iff {description : String} {extent : Extent} :
    check ⟨description, .positive extent⟩ operator t = .ok false ↔
      t.evaluate extent = .ok none := by
  simp only [check, Computation.bind_eq_ok]
  constructor
  · rintro ⟨a?, ha, h⟩
    cases a? with
    | none => exact ha
    | some a =>
      dsimp only at h
      split at h <;> cases h
  · intro ha
    exact ⟨none, ha, rfl⟩

/-- An obligation stays open when it waits for a symbol and nothing fails to evaluate. -/
theorem isOpen_iff_undecided :
    o.isOpen operator t = true ↔ o.relation.Evaluable t ∧ o.relation.Undecided t := by
  rw [isOpen_iff]
  obtain ⟨description, relation⟩ := o
  cases relation with
  | equal lhs rhs =>
    rw [check_equal_eq_false_iff, Relation.evaluable_equal, Relation.undecided_equal]
    constructor
    · rintro ⟨_, _, ha, hb, rfl | rfl⟩
      · exact ⟨⟨⟨_, ha⟩, ⟨_, hb⟩⟩, .inl ha⟩
      · exact ⟨⟨⟨_, ha⟩, ⟨_, hb⟩⟩, .inr hb⟩
    · rintro ⟨⟨⟨a?, ha⟩, ⟨b?, hb⟩⟩, hopen | hopen⟩
      · exact ⟨none, b?, hopen, hb, .inl rfl⟩
      · exact ⟨a?, none, ha, hopen, .inr rfl⟩
  | positive extent =>
    rw [check_positive_eq_false_iff, Relation.evaluable_positive, Relation.undecided_positive]
    exact ⟨fun h => ⟨⟨_, h⟩, h⟩, And.right⟩

/-- Settling goes on past an obligation unless it is violated or cannot be evaluated. -/
theorem tenable_iff : o.Tenable operator t ↔
    o.relation.Evaluable t ∧ ¬ o.relation.Violated t := by
  refine ⟨?_, ?_⟩
  · intro h
    obtain ⟨met, hmet⟩ := h
    cases met with
    | true => exact (check_eq_true_iff.1 hmet).not_violated
    | false =>
      obtain ⟨hevaluable, hundecided⟩ := isOpen_iff_undecided.1 (isOpen_iff.2 hmet)
      exact ⟨hevaluable, hundecided.not_violated⟩
  · intro h
    obtain ⟨hevaluable, hviolated⟩ := h
    by_cases hundecided : o.relation.Undecided t
    · exact ⟨false, isOpen_iff.1 (isOpen_iff_undecided.2 ⟨hevaluable, hundecided⟩)⟩
    · exact ⟨true, check_eq_true_iff.2 (hevaluable.holds hviolated hundecided)⟩

end Obligation

/-! ## Applications -/

/-- An operator with the tensors it is to be applied to, and what its rule asks of them. -/
structure Candidate where
  op : Operator
  data : TensorId
  parameter : TensorId
  x : Tensor
  s : Tensor
  obligations : List Obligation

namespace Candidate

/-- The operator is there and has not been applied, the inputs are two tensors that are there, and
the rule accepts their axes and asks nothing of them that is violated or cannot be evaluated. -/
structure Admitted (c : Candidate) (g : Graph) (id : OperatorId) (inputs : List TensorId) :
    Prop where
  op : g.operators[id]? = some c.op
  unapplied : c.op.application = none
  inputs : inputs = [c.data, c.parameter]
  data : g.tensors[c.data]? = some c.x
  parameter : g.tensors[c.parameter]? = some c.s
  accepted : c.op.kind.Accepts c.x.shape c.s.shape
  obligations : c.op.kind.obligations ⟨c.op.label, some c.x, some c.s⟩ = .ok c.obligations
  evaluable : ∀ o ∈ c.obligations, o.relation.Evaluable g.symbols
  not_violated : ∀ o ∈ c.obligations, ¬ o.relation.Violated g.symbols

/-- One intermediate tensor is appended, which the operator produces; each operand lists the
operator once, as its last consumer; the operator records operands, result and what is undecided.
All other nodes and the symbols are those from before. -/
structure Applied (c : Candidate) (g h : Graph) (id : OperatorId) (result : TensorId) : Prop where
  symbols : h.symbols = g.symbols
  result_eq : result = g.tensors.length
  tensors_length : h.tensors.length = g.tensors.length + 1
  operators_length : h.operators.length = g.operators.length
  appended : ∃ y, h.tensors[result]? = some y ∧ y.id = result ∧ y.role = .intermediate ∧
    y.shape.extents.length = y.shape.order.rank ∧ y.producer = some id ∧ y.consumers = []
  operands : ∀ i x, g.tensors[i]? = some x → i = c.data ∨ i = c.parameter →
    id ∉ x.consumers ∧ h.tensors[i]? = some { x with consumers := x.consumers ++ [id] }
  tensors : ∀ i < g.tensors.length, i ≠ c.data → i ≠ c.parameter → h.tensors[i]? = g.tensors[i]?
  operator : ∃ pending, h.operators[id]? = some { c.op with
      application := some ⟨c.data, c.parameter, result, pending⟩ } ∧
    pending.Sublist c.obligations ∧
    ∀ o, o ∈ pending ↔ o ∈ c.obligations ∧ o.relation.Undecided g.symbols
  operators : ∀ i, i ≠ id → h.operators[i]? = g.operators[i]?

variable {c : Candidate} {g : Graph} {id : OperatorId} {inputs : List TensorId}

/-- An application that succeeds attaches an admitted candidate. -/
theorem exists_of_apply {r : Graph × TensorId} (h : g.apply id inputs = .ok r) :
    ∃ (c : Candidate) (shape : Shape), c.Admitted g id inputs ∧
      (g.attach c.op c.data c.parameter shape
        (c.obligations.filter (Obligation.isOpen c.op.label g.symbols)), g.tensors.length) = r := by
  obtain ⟨op, data, parameter, x, s, obligations, shape, hinputs, hop, happ, hx, hs, hobl, hten,
    hshape, hr⟩ := Graph.apply_eq_ok.1 h
  refine ⟨⟨op, data, parameter, x, s, obligations⟩, shape,
    ⟨hop, happ, hinputs, hx, hs, ?_, hobl, ?_, ?_⟩, hr⟩
  · exact OperatorKind.accepts_iff.2 ⟨obligations, hobl⟩
  · intro o ho
    exact (Obligation.tenable_iff.1 (hten o ho)).1
  · intro o ho
    exact (Obligation.tenable_iff.1 (hten o ho)).2

/-- An admitted candidate can be applied: once its obligations are settled, nothing fails. -/
theorem Admitted.exists_apply (hc : c.Admitted g id inputs) : ∃ r, g.apply id inputs = .ok r := by
  obtain ⟨shape, hshape⟩ := hc.accepted.exists_resultShape c.op.label g.symbols
  have hten : ∀ o ∈ c.obligations, o.Tenable c.op.label g.symbols := by
    intro o ho
    exact Obligation.tenable_iff.2 ⟨hc.evaluable o ho, hc.not_violated o ho⟩
  exact ⟨_, Graph.apply_eq_ok.2 ⟨c.op, c.data, c.parameter, c.x, c.s, c.obligations, shape,
    hc.inputs, hc.op, hc.unapplied, hc.data, hc.parameter, hc.obligations, hten, hshape, rfl⟩⟩

/-- No tensor lists an operator that has not been applied. -/
theorem Admitted.not_listed (hc : c.Admitted g id inputs) (hg : g.Consumed) {i : TensorId}
    {x : Tensor} (hx : g.tensors[i]? = some x) : id ∉ x.consumers := by
  intro hmem
  obtain ⟨op, a, hop, ha, -⟩ := (hg i x hx).2 id hmem
  cases hc.op.symm.trans hop
  rw [hc.unapplied] at ha
  cases ha

/-- What attaching an admitted candidate does to a graph. -/
theorem Admitted.applied (hc : c.Admitted g id inputs) (hg : g.Coherent) (hconsumed : g.Consumed)
    (shape : Shape) : c.Applied g (g.attach c.op c.data c.parameter shape
      (c.obligations.filter (Obligation.isOpen c.op.label g.symbols))) id g.tensors.length := by
  have hid := hg.operator_id id c.op hc.op
  have hdata := (List.getElem?_eq_some_iff.1 hc.data).1
  have hparameter := (List.getElem?_eq_some_iff.1 hc.parameter).1
  refine ⟨rfl, rfl, ?_, ?_, ?_, ?_, ?_, ?_, ?_⟩
  · simp [Graph.attach]
  · simp [Graph.attach]
  · rw [Graph.tensors_attach hdata hparameter, if_pos rfl]
    exact ⟨_, rfl, rfl, rfl, shape.length_extents, congrArg some hid, rfl⟩
  · intro i x hx hi
    have hfresh := hc.not_listed hconsumed hx
    refine ⟨hfresh, ?_⟩
    rw [Graph.tensors_attach_operand hdata hparameter hx hi, hid, Tensor.addConsumer,
      if_neg (by simpa using hfresh)]
  · intro i hi hidata hiparameter
    rw [Graph.tensors_attach hdata hparameter, if_neg (Nat.ne_of_lt hi),
      List.getElem?_eq_getElem hi, Option.map_some, if_neg (not_or.2 ⟨hidata, hiparameter⟩)]
  · refine ⟨_, Graph.operators_attach_self hc.op hid, List.filter_sublist, ?_⟩
    intro o
    rw [List.mem_filter, Obligation.isOpen_iff_undecided]
    exact and_congr_right fun ho => and_iff_right (hc.evaluable o ho)
  · intro i hi
    have hne : c.op.id ≠ i := hid.trans_ne hi.symm
    rw [Graph.operators_attach, if_neg hne]

end Candidate

namespace Graph

variable {g : Graph}

/-- Applying an operator succeeds exactly for an admitted candidate, and then changes what belongs
to the application and nothing else. Also when it is done in place, and when a symbol is bound in
place, a failure leaves the graph as it was. -/
theorem Reachable.apply_exact (hg : g.Reachable) (id : OperatorId) (inputs : List TensorId) :
    ((∃ r, g.apply id inputs = .ok r) ↔ ∃ c : Candidate, c.Admitted g id inputs) ∧
      (∀ h result, g.apply id inputs = .ok (h, result) →
        ∃ c : Candidate, c.Admitted g id inputs ∧ c.Applied g h id result) ∧
      (applyInPlace id inputs).AllOrNothing g (g.apply id inputs) ∧
      ∀ k value, (bindInPlace k value).AllOrNothing g ((·, ()) <$> g.bind k value) := by
  refine ⟨⟨?_, ?_⟩, ?_, applyInPlace_allOrNothing hg.coherent id inputs, bindInPlace_allOrNothing g⟩
  · intro hr
    obtain ⟨r, hr⟩ := hr
    obtain ⟨c, shape, hc, -⟩ := Candidate.exists_of_apply hr
    exact ⟨c, hc⟩
  · intro hc
    obtain ⟨c, hc⟩ := hc
    exact hc.exists_apply
  · intro h result hr
    obtain ⟨c, shape, hc, hattach⟩ := Candidate.exists_of_apply hr
    cases hattach
    exact ⟨c, hc, hc.applied hg.coherent hg.consumed shape⟩

/-- A graph with a vector of open length and a scaling along its only axis. -/
def selfScaling : Graph :=
  empty.replay [.addSymbol "N", .addTensor .input "x" .c [.symbol 0],
    .addOperator none (.axiswiseScale .c)]

/-- The vector can be scaled by itself, which attaches one edge. Without a second operand, and with
a negative length, nothing changes. -/
theorem apply_exact_selfScaling :
    (∃ h, (applyInPlace 0 [0, 0]).run selfScaling = (.ok 1, h) ∧
      ∃ c : Candidate, c.Admitted selfScaling 0 [0, 0] ∧ c.Applied selfScaling h 0 1) ∧
    (∃ e, (applyInPlace 0 [0]).run selfScaling = (.error e, selfScaling)) ∧
    ∃ e, (bindInPlace 0 (-1)).run selfScaling = (.error e, selfScaling) := by
  have hexact := fun id inputs => Reachable.apply_exact (g := selfScaling) ⟨_, rfl⟩ id inputs
  obtain ⟨-, happlied, hinPlace, -⟩ := hexact 0 [0, 0]
  obtain ⟨-, -, hfailed, hbind⟩ := hexact 0 [0]
  have happly : selfScaling.apply 0 [0, 0] = .ok (selfScaling.replay [.apply 0 [0, 0]], 1) := by
    decide +kernel
  have hfailure : selfScaling.apply 0 [0] = .error (.unsupported
      (.operator "AxiswiseScale 'AxiswiseScale0'") (.wrongArity ["x", "s"] 1)) := by
    decide +kernel
  have hnegative : ((·, ()) <$> selfScaling.bind 0 (-1)) =
      .error (.unsupported (.symbol "N") (.negativeBinding (-1))) := by
    decide +kernel
  refine ⟨⟨_, hinPlace.all _ _ happly, happlied _ _ happly⟩, ⟨_, hfailed.nothing _ hfailure⟩, ?_⟩
  exact ⟨_, (hbind 0 (-1)).nothing _ hnegative⟩

end Graph

end TensorLowering
