import TensorLowering.Proofs.Graph.Narrowing
import TensorLowering.Proofs.Rule
import TensorLowering.Proofs.Symbol.Occurrence

/-!
# Which symbols a graph mentions

The extents of a graph are made of the extents that were declared: rules combine and simplify the
extents of operands, and relabelling permutes them. So every symbol of a graph is a symbol of a
declared extent (`Graph.Over.run`).
-/

namespace TensorLowering

variable {P Q : SymbolId → Prop} {s r : Shape} {axis : Axis} {a : Extent}

/-! ## Shapes -/

/-- Every symbol of the shape satisfies a predicate. -/
def Shape.Over (P : SymbolId → Prop) (s : Shape) : Prop := ∀ a ∈ s.extents, a.Over P

theorem Shape.Over.extent (h : s.Over P) (ha : s.extent axis = .ok a) : a.Over P := by
  obtain ⟨i, -, hi⟩ := Shape.extent_eq_ok.1 ha
  exact h a (List.mem_of_getElem? hi)

theorem Shape.Over.relabel {subject : Subject} {target : Order} (h : s.Over P)
    (hr : s.relabel subject target = .ok r) : r.Over P := by
  intro a ha
  obtain ⟨-, -, hextents⟩ := Shape.relabel_eq_ok.1 hr
  obtain ⟨axis, -, haxis⟩ := Computation.exists_item_of_mem hextents ha
  exact h.extent haxis

/-! ## Rules -/

theorem Deconvolution.over_outputExtent {ksize stride padding : UInt64} (h : a.Over P) :
    (outputExtent a ksize stride padding).Over P := by
  have hless : (a - .value 1).Over P := h.combine (Extent.over_value _)
  have hscaled : ((a - .value 1) * .ofWord stride).Over P := hless.combine (Extent.over_value _)
  have hpadding : (Extent.ofWord padding * .value 2).Over P :=
    (Extent.over_value _).combine (Extent.over_value _)
  exact (hscaled.combine hpadding).combine (Extent.over_value _)

namespace OperatorKind

variable {kind : OperatorKind} {label : String} {x w : Tensor} {os : List Obligation}

/-- The obligations of a rule mention symbols of the operands only. -/
theorem over_obligations (hx : x.shape.Over P) (hw : w.shape.Over P)
    (hos : kind.obligations ⟨label, some x, some w⟩ = .ok os) :
    ∀ o ∈ os, ∀ a ∈ o.relation.extents, a.Over P := by
  cases kind with
  | axiswiseScale axis =>
    obtain ⟨-, -, scaled, input, hscaled, hinput, rfl⟩ := AxiswiseScale.obligations_eq_ok.1 hos
    simpa [Obligation.equal, Relation.extents] using ⟨hw.extent hscaled, hx.extent hinput⟩
  | deconvolution p =>
    obtain ⟨-, height, width, channel, kernelHeight, kernelWidth, kernelChannel, hheight, hwidth,
      hchannel, hkh, hkw, hkc, rfl⟩ := Deconvolution.obligations_eq_ok.1 hos
    have hword : ∀ n, (Extent.ofWord n).Over P := fun n => Extent.over_value _
    simpa [Deconvolution.conditions, Obligation.equal, Obligation.positive, Relation.extents] using
      ⟨⟨hw.extent hkh, hword _⟩, ⟨hw.extent hkw, hword _⟩, ⟨hw.extent hkc, hx.extent hchannel⟩,
        Deconvolution.over_outputExtent (hx.extent hheight),
        Deconvolution.over_outputExtent (hx.extent hwidth)⟩

/-- The result of a rule mentions symbols of the operands only. -/
theorem over_resultShape {t : SymbolTable} (hx : x.shape.Over P) (hw : w.shape.Over P)
    (hr : kind.resultShape t ⟨label, some x, some w⟩ = .ok r) : r.Over P := by
  cases kind with
  | axiswiseScale axis =>
    cases hr
    exact hx
  | deconvolution p =>
    obtain ⟨batch, height, width, channel, hbatch, hheight, hwidth, hchannel, hr⟩ :=
      Deconvolution.resultShape_eq_ok.1 hr
    refine Shape.Over.relabel (fun a ha => ?_) hr
    rcases List.mem_cons.1 ha with rfl | ha
    · exact (hx.extent hbatch).simplify t
    rcases List.mem_cons.1 ha with rfl | ha
    · exact (Deconvolution.over_outputExtent (hx.extent hheight)).simplify t
    rcases List.mem_cons.1 ha with rfl | ha
    · exact (Deconvolution.over_outputExtent (hx.extent hwidth)).simplify t
    · cases List.mem_singleton.1 ha
      exact (hw.extent hchannel).simplify t

end OperatorKind

/-! ## Graphs -/

/-- The extents that a step declares. -/
def Edit.extents : Edit → List Extent
  | addTensor _ _ _ extents => extents
  | _ => []

namespace Graph

variable {g h : Graph}

/-- Every symbol of every tensor satisfies a predicate. -/
def Over (P : SymbolId → Prop) (g : Graph) : Prop := ∀ x ∈ g.tensors, x.shape.Over P

theorem Over.mono (hg : g.Over P) (hPQ : ∀ k, P k → Q k) : g.Over Q :=
  fun x hx a ha => (hg x hx a ha).mono hPQ

theorem Over.setTensor {id : TensorId} {y : Tensor} (hg : g.Over P) (hy : y.shape.Over P) :
    (g.setTensor id y).Over P := by
  intro x hx
  rcases List.mem_or_eq_of_mem_set hx with hx | rfl
  · exact hg x hx
  · exact hy

theorem Over.attach {op : Operator} {data parameter : TensorId} {x w : Tensor}
    {pending : List Obligation} (hg : g.Over P) (hx : g.tensors[data]? = some x)
    (hw : g.tensors[parameter]? = some w) (hr : r.Over P) :
    (g.attach op data parameter r pending).Over P := by
  intro y hy
  obtain ⟨i, hi⟩ := List.getElem?_of_mem hy
  rw [tensors_attach (List.getElem?_eq_some_iff.1 hx).1 (List.getElem?_eq_some_iff.1 hw).1] at hi
  split at hi
  · cases hi
    exact hr
  · obtain ⟨z, hz, rfl⟩ := Option.map_eq_some_iff.1 hi
    have hshape := hg z (List.mem_of_getElem? hz)
    split
    · rw [Tensor.shape_addConsumer]
      exact hshape
    · exact hshape

/-- After a step, a graph mentions only symbols that it mentioned before and symbols that the step
declares. -/
theorem Over.run {e : Edit} (hg : g.Over P) (he : ∀ a ∈ e.extents, a.Over P)
    (hrun : e.run g = .ok h) : h.Over P := by
  cases e with
  | addSymbol label | addOperator name kind =>
    cases hrun
    exact hg
  | addTensor declaration name order extents =>
    obtain ⟨_, hr, rfl⟩ := Computation.map_eq_ok.1 hrun
    obtain ⟨hlen, rfl⟩ := addTensor_eq_ok.1 hr
    intro x hx
    rcases List.mem_append.1 hx with hx | hx
    · exact hg x hx
    · cases List.mem_singleton.1 hx
      exact he
  | markOutput id =>
    obtain ⟨x, hx, -, rfl⟩ := markOutput_eq_ok.1 hrun
    exact hg.setTensor (hg x (List.mem_of_getElem? hx))
  | changeOrder id target =>
    obtain ⟨x, shape, hx, -, -, hshape, rfl⟩ := changeOrder_eq_ok.1 hrun
    exact hg.setTensor ((hg x (List.mem_of_getElem? hx)).relabel hshape)
  | apply id inputs =>
    obtain ⟨_, hr, rfl⟩ := Computation.map_eq_ok.1 hrun
    obtain ⟨op, data, parameter, x, w, os, shape, -, -, -, hx, hw, -, -, hshape, rfl⟩ :=
      apply_eq_ok.1 hr
    exact hg.attach hx hw (OperatorKind.over_resultShape (hg x (List.mem_of_getElem? hx))
      (hg w (List.mem_of_getElem? hw)) hshape)
  | bind k value =>
    intro x hx
    rw [(narrows_of_bind hrun).tensors] at hx
    exact hg x hx
  | revalidate =>
    obtain ⟨operators, -, rfl⟩ := settle_eq_ok.1 hrun
    exact hg

end Graph

end TensorLowering
