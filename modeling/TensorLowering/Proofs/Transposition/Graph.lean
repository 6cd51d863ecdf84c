import TensorLowering.Proofs.Graph.Step
import TensorLowering.Proofs.Rule

/-!
# Construction in other axis orders

The order of axes is how a tensor is stored, not what it is. Two shapes are transposed when they
hold the same axes with the same extents (`Shape.Transposes`), and two graphs when they differ in
nothing but transposed shapes (`Graph.Transposes`). Rules look extents up by axis, so they ask the
same obligations of transposed operands and infer transposed results
(`OperatorKind.obligations_of_transposes`, `OperatorKind.exists_resultShape_of_transposes`). Scripts
that declare their tensors in different orders therefore succeed at the same steps, and build
transposed graphs (`Graph.Transposes.replay`).
-/

namespace TensorLowering

/-! ## Shapes -/

/-- The shapes hold the same axes, in whatever orders, with the same extents. -/
structure Shape.Transposes (r s : Shape) : Prop where
  axes : r.order.axes.Perm s.order.axes
  extent : ∀ axis e, r.extent axis = .ok e ↔ s.extent axis = .ok e

namespace Shape.Transposes

variable {q r s : Shape} {axis : Axis} {subject : Subject} {target : Order}

theorem refl (r : Shape) : r.Transposes r := ⟨.refl _, fun _ _ => .rfl⟩

theorem symm (h : r.Transposes s) : s.Transposes r :=
  ⟨h.axes.symm, fun axis e => (h.extent axis e).symm⟩

theorem trans (h : q.Transposes r) (h' : r.Transposes s) : q.Transposes s :=
  ⟨h.axes.trans h'.axes, fun axis e => (h.extent axis e).trans (h'.extent axis e)⟩

theorem contains (h : r.Transposes s) : r.order.contains axis = s.order.contains axis :=
  Bool.eq_iff_iff.2 (by simp only [Order.contains_iff, h.axes.mem_iff])

theorem rank (h : r.Transposes s) : r.order.rank = s.order.rank := h.axes.length_eq

theorem sameAxes (h : r.Transposes s) :
    r.order.sameAxes target = true ↔ s.order.sameAxes target = true := by
  rw [Order.sameAxes_iff_perm, Order.sameAxes_iff_perm]
  exact ⟨h.axes.symm.trans, h.axes.trans⟩

end Shape.Transposes

namespace Shape

variable {r s : Shape} {axis : Axis} {subject : Subject} {target : Order} {e : Extent}

/-- Relabelling a shape transposes it. -/
theorem transposes_of_relabel (h : r.relabel subject target = .ok s) : r.Transposes s := by
  obtain ⟨hsame, rfl, -⟩ := relabel_eq_ok.1 h
  have hperm := Order.perm_of_sameAxes hsame
  refine ⟨hperm, fun axis e => ?_⟩
  by_cases haxis : axis ∈ s.order.axes
  · rw [extent_of_relabel h haxis]
  · -- Neither shape has an extent along an axis that is not there.
    have hr := mt (fun he => hperm.mem_iff.1 (exists_extent.1 ⟨e, he⟩)) haxis
    have hs := mt (fun he => exists_extent.1 ⟨e, he⟩) haxis
    exact iff_of_false hr hs

/-- A shape that transposes one that can be relabelled can be relabelled, to any order of the same
axes. -/
theorem Transposes.exists_relabel {r' : Shape} {subject' : Subject} {target' : Order}
    (hrs : r.Transposes s) (htarget : target.axes.Perm target'.axes)
    (h : r.relabel subject target = .ok r') :
    ∃ s', s.relabel subject' target' = .ok s' ∧ r'.Transposes s' := by
  have hperm := (hrs.axes.symm.trans (Order.perm_of_sameAxes (relabel_eq_ok.1 h).1)).trans htarget
  obtain ⟨s', hs'⟩ := Shape.exists_relabel subject' hperm
  exact ⟨s', hs', (transposes_of_relabel h).symm.trans (hrs.trans (transposes_of_relabel hs'))⟩

end Shape

/-! ## Rules on transposed operands -/

namespace OperatorKind

variable {kind : OperatorKind} {label : String} {x x' s s' : Tensor} {os : List Obligation}
  {t : SymbolTable} {shape : Shape}

/-- A rule asks the same of transposed operands. -/
theorem obligations_of_transposes (hx : x.shape.Transposes x'.shape)
    (hs : s.shape.Transposes s'.shape)
    (hos : kind.obligations ⟨label, some x, some s⟩ = .ok os) :
    kind.obligations ⟨label, some x', some s'⟩ = .ok os := by
  cases kind with
  | axiswiseScale axis =>
    rw [AxiswiseScale.obligations_eq_ok] at hos ⊢
    rw [← hx.contains, ← hs.contains, ← hs.rank]
    simpa only [hx.extent, hs.extent] using hos
  | deconvolution p =>
    rw [Deconvolution.obligations_eq_ok] at hos ⊢
    simpa only [hx.sameAxes, hs.sameAxes, hx.extent, hs.extent] using hos

/-- A rule infers transposed results from transposed operands. -/
theorem exists_resultShape_of_transposes (hx : x.shape.Transposes x'.shape)
    (hs : s.shape.Transposes s'.shape)
    (hshape : kind.resultShape t ⟨label, some x, some s⟩ = .ok shape) :
    ∃ shape', kind.resultShape t ⟨label, some x', some s'⟩ = .ok shape' ∧
      shape.Transposes shape' := by
  cases kind with
  | axiswiseScale axis =>
    cases hshape
    exact ⟨_, rfl, hx⟩
  | deconvolution p =>
    obtain ⟨batch, height, width, channel, hbatch, hheight, hwidth, hchannel, hshape⟩ :=
      Deconvolution.resultShape_eq_ok.1 hshape
    -- Each result is laid out in the order of its own data.
    obtain ⟨shape', hshape', htransposes⟩ :=
      (Shape.Transposes.refl _).exists_relabel hx.axes hshape
    refine ⟨shape', Deconvolution.resultShape_eq_ok.2 ⟨batch, height, width, channel, ?_, ?_, ?_,
      ?_, hshape'⟩, htransposes⟩
    · exact (hx.extent _ _).1 hbatch
    · exact (hx.extent _ _).1 hheight
    · exact (hx.extent _ _).1 hwidth
    · exact (hs.extent _ _).1 hchannel

end OperatorKind

/-! ## Graphs -/

/-- The tensors are the same up to the order of their axes. -/
structure Tensor.Transposes (x y : Tensor) : Prop where
  id : y.id = x.id
  name : y.name = x.name
  role : y.role = x.role
  shape : x.shape.Transposes y.shape
  producer : y.producer = x.producer
  consumers : y.consumers = x.consumers

/-- The graphs are the same up to the orders of the axes of their tensors. -/
structure Graph.Transposes (g h : Graph) : Prop where
  tensors : List.Forall₂ Tensor.Transposes g.tensors h.tensors
  operators : h.operators = g.operators
  symbols : h.symbols = g.symbols

/-- The steps are the same, except that a declaration may lay its tensor out in another order of the
same axes, with the extents permuted accordingly. -/
inductive Edit.Transposes : Edit → Edit → Prop
  | same (e : Edit) : Transposes e e
  | declare (declaration : Declaration) (name : String) {r s : Shape}
      (hrelabel : r.relabel .relabelling s.order = .ok s) :
      Transposes (.addTensor declaration name r.order r.extents)
        (.addTensor declaration name s.order s.extents)

theorem Tensor.Transposes.symm {x y : Tensor} (h : x.Transposes y) : y.Transposes x :=
  ⟨h.id.symm, h.name.symm, h.role.symm, h.shape.symm, h.producer.symm, h.consumers.symm⟩

theorem Tensor.Transposes.addConsumer {x y : Tensor} (h : x.Transposes y) (id : OperatorId) :
    (x.addConsumer id).Transposes (y.addConsumer id) := by
  unfold Tensor.addConsumer
  rw [h.consumers]
  split
  · exact h
  · exact ⟨h.id, h.name, h.role, h.shape, h.producer, rfl⟩

theorem Edit.Transposes.symm {e e' : Edit} (h : e.Transposes e') : e'.Transposes e := by
  cases h with
  | same => exact .same e
  | @declare declaration name r s hrelabel =>
    have htransposes := Shape.transposes_of_relabel hrelabel
    refine .declare declaration name (Shape.relabel_eq_ok.2 ⟨?_, rfl, ?_⟩)
    · exact Order.sameAxes_iff_perm.2 htransposes.axes.symm
    · refine List.forall₂_iff_get.2 ⟨r.length_extents.symm, fun i hi hi' => ?_⟩
      refine (htransposes.extent _ _).1 (Shape.extent_eq_ok.2 ⟨i, ?_, ?_⟩)
      · simp
      · simp

namespace Graph

variable {g h g' h' : Graph} {e e' : Edit}

theorem Transposes.refl (g : Graph) : g.Transposes g :=
  ⟨List.forall₂_same.2 fun _ _ => ⟨rfl, rfl, rfl, .refl _, rfl, rfl⟩, rfl, rfl⟩

theorem Transposes.symm (hgh : g.Transposes h) : h.Transposes g :=
  ⟨(hgh.tensors.imp fun _ _ hxy => hxy.symm).flip, hgh.operators.symm, hgh.symbols.symm⟩

/-- Graphs stay transposed when transposed tensors are put at one place. -/
theorem Transposes.setTensor {x y : Tensor} (hgh : g.Transposes h) (hxy : x.Transposes y)
    (id : TensorId) : (g.setTensor id x).Transposes (h.setTensor id y) :=
  ⟨Computation.forall₂_set hgh.tensors hxy id, hgh.operators, hgh.symbols⟩

/-- Graphs stay transposed when an operator is applied in both. -/
theorem Transposes.attach {op : Operator} {data parameter : TensorId} {shape shape' : Shape}
    {pending : List Obligation} (hgh : g.Transposes h) (hshape : shape.Transposes shape') :
    (g.attach op data parameter shape pending).Transposes
      (h.attach op data parameter shape' pending) := by
  have hlen : h.tensors.length = g.tensors.length := hgh.tensors.length_eq.symm
  refine ⟨forall₂_attach hgh.tensors (fun _ _ hxy => hxy.addConsumer op.id)
    ⟨hlen, rfl, rfl, hshape, rfl, rfl⟩, ?_, hgh.symbols⟩
  simp only [Graph.attach, hgh.operators, hlen]

/-! ## Scripts -/

/-- A tensor that can be declared can be declared transposed on every transposed graph. -/
theorem Transposes.run_addTensor {declaration : Declaration} {name : String} {r s : Shape}
    (hgh : g.Transposes h) (hrs : r.Transposes s)
    (hrun : (Edit.addTensor declaration name r.order r.extents).run g = .ok g') :
    ∃ h', (Edit.addTensor declaration name s.order s.extents).run h = .ok h' ∧
      g'.Transposes h' := by
  obtain ⟨_, hr, rfl⟩ := Computation.map_eq_ok.1 hrun
  obtain ⟨-, rfl⟩ := addTensor_eq_ok.1 hr
  have hnew : Tensor.Transposes ⟨g.tensors.length, name, declaration.role, r, none, []⟩
      ⟨h.tensors.length, name, declaration.role, s, none, []⟩ :=
    ⟨hgh.tensors.length_eq.symm, rfl, rfl, hrs, rfl, rfl⟩
  exact ⟨_, Computation.map_eq_ok.2 ⟨_, addTensor_eq_ok.2 ⟨s.length_extents, rfl⟩, rfl⟩,
    List.rel_append hgh.tensors (.cons hnew .nil), hgh.operators, hgh.symbols⟩

/-- An application that succeeds succeeds on every transposed graph. -/
theorem Transposes.run_apply {id : OperatorId} {inputs : List TensorId} (hgh : g.Transposes h)
    (hrun : (Edit.apply id inputs).run g = .ok g') :
    ∃ h', (Edit.apply id inputs).run h = .ok h' ∧ g'.Transposes h' := by
  obtain ⟨_, hr, rfl⟩ := Computation.map_eq_ok.1 hrun
  obtain ⟨op, data, parameter, x, w, os, shape, rfl, hop, happ, hx, hw, hos, hten, hshape, rfl⟩ :=
    apply_eq_ok.1 hr
  obtain ⟨x', hx', hxx'⟩ := Computation.exists_result hgh.tensors hx
  obtain ⟨w', hw', hww'⟩ := Computation.exists_result hgh.tensors hw
  have hos' := OperatorKind.obligations_of_transposes hxx'.shape hww'.shape hos
  obtain ⟨shape', hshape', htransposes⟩ :=
    OperatorKind.exists_resultShape_of_transposes hxx'.shape hww'.shape hshape
  rw [← hgh.operators] at hop
  rw [← hgh.symbols] at hten hshape' ⊢
  exact ⟨_, Computation.map_eq_ok.2 ⟨_, apply_eq_ok.2 ⟨op, data, parameter, x', w', os, shape',
    rfl, hop, happ, hx', hw', hos', hten, hshape', rfl⟩, rfl⟩, hgh.attach htransposes⟩

/-- Settling looks at operators and symbols only. -/
theorem Transposes.settle {t : SymbolTable} (hgh : g.Transposes h) (hsettle : g.settle t = .ok g') :
    ∃ h', h.settle t = .ok h' ∧ g'.Transposes h' := by
  obtain ⟨operators, hops, rfl⟩ := settle_eq_ok.1 hsettle
  rw [← hgh.operators] at hops
  exact ⟨_, settle_eq_ok.2 ⟨operators, hops, rfl⟩, hgh.tensors, rfl, rfl⟩

/-- A step that succeeds succeeds on every transposed graph, also when it declares a transposed
tensor. -/
theorem Transposes.run (hgh : g.Transposes h) (he : e.Transposes e') (hrun : e.run g = .ok g') :
    ∃ h', e'.run h = .ok h' ∧ g'.Transposes h' := by
  cases he with
  | declare declaration name hrelabel =>
    exact hgh.run_addTensor (Shape.transposes_of_relabel hrelabel) hrun
  | same =>
    cases e with
    | addSymbol label =>
      cases hrun
      refine ⟨_, rfl, hgh.tensors, hgh.operators, ?_⟩
      exact congrArg (SymbolTable.create · label) hgh.symbols
    | addTensor declaration name order extents =>
      obtain ⟨_, hr, -⟩ := Computation.map_eq_ok.1 hrun
      obtain ⟨hrank, -⟩ := addTensor_eq_ok.1 hr
      exact hgh.run_addTensor (.refl ⟨order, extents, hrank⟩) hrun
    | addOperator name kind =>
      cases hrun
      refine ⟨_, rfl, hgh.tensors, ?_, hgh.symbols⟩
      simp only [addOperator, hgh.operators]
    | markOutput id =>
      obtain ⟨x, hx, hrole, rfl⟩ := markOutput_eq_ok.1 hrun
      obtain ⟨y, hy, hxy⟩ := Computation.exists_result hgh.tensors hx
      have hmarked : Tensor.Transposes { x with role := .output } { y with role := .output } :=
        ⟨hxy.id, hxy.name, rfl, hxy.shape, hxy.producer, hxy.consumers⟩
      exact ⟨_, markOutput_eq_ok.2 ⟨y, hy, hxy.role ▸ hrole, rfl⟩, hgh.setTensor hmarked id⟩
    | changeOrder id target =>
      obtain ⟨x, shape, hx, hprod, hcons, hshape, rfl⟩ := changeOrder_eq_ok.1 hrun
      obtain ⟨y, hy, hxy⟩ := Computation.exists_result hgh.tensors hx
      obtain ⟨shape', hshape', htransposes⟩ := hxy.shape.exists_relabel (.refl _) hshape
      have hrelabelled : Tensor.Transposes { x with shape } { y with shape := shape' } :=
        ⟨hxy.id, hxy.name, hxy.role, htransposes, hxy.producer, hxy.consumers⟩
      exact ⟨_, changeOrder_eq_ok.2 ⟨y, shape', hy, hxy.producer.trans hprod,
        hxy.consumers.trans hcons, hshape', rfl⟩, hgh.setTensor hrelabelled id⟩
    | apply id inputs => exact hgh.run_apply hrun
    | bind k value =>
      obtain ⟨bound, hb, hr⟩ := Computation.bind_eq_ok.1 hrun
      rw [← hgh.symbols] at hb
      cases bound with
      | none =>
        cases hr
        exact ⟨h, Computation.bind_eq_ok.2 ⟨none, hb, rfl⟩, hgh⟩
      | some t =>
        obtain ⟨h', hh', htransposes⟩ := hgh.settle hr
        exact ⟨h', Computation.bind_eq_ok.2 ⟨some t, hb, hh'⟩, htransposes⟩
    | revalidate =>
      obtain ⟨h', hh', htransposes⟩ := hgh.settle hrun
      rw [← hgh.symbols] at hh'
      exact ⟨h', hh', htransposes⟩

/-- Which steps of a script succeed; a step that fails changes nothing. -/
def outcomes (g : Graph) : List Edit → List Bool
  | [] => []
  | e :: rest => (e.run g).isOk :: (g.attempt e).outcomes rest

/-- Transposed steps succeed together, and keep graphs transposed in either case. -/
theorem Transposes.attempt (hgh : g.Transposes h) (he : e.Transposes e') :
    (e'.run h).isOk = (e.run g).isOk ∧ (g.attempt e).Transposes (h.attempt e') := by
  unfold Graph.attempt
  cases hg : e.run g with
  | ok g' =>
    obtain ⟨h', hh', htransposes⟩ := hgh.run he hg
    rw [hh']
    exact ⟨rfl, htransposes⟩
  | error =>
    cases hh : e'.run h with
    | error => exact ⟨rfl, hgh⟩
    | ok h' =>
      obtain ⟨g', hg', -⟩ := hgh.symm.run he.symm hh
      cases hg.symm.trans hg'

/-- Scripts that differ in declared orders only succeed at the same steps, and build transposed
graphs. -/
theorem Transposes.replay {script script' : List Edit} (hgh : g.Transposes h)
    (hscript : List.Forall₂ Edit.Transposes script script') :
    h.outcomes script' = g.outcomes script ∧
      (g.replay script).Transposes (h.replay script') := by
  induction hscript generalizing g h with
  | nil => exact ⟨rfl, hgh⟩
  | @cons e e' script script' he _ ih =>
    obtain ⟨hok, hnext⟩ := hgh.attempt he
    obtain ⟨houtcomes, hfinal⟩ := ih hnext
    exact ⟨congrArg₂ List.cons hok houtcomes, hfinal⟩

end Graph

end TensorLowering
