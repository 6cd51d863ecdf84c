import TensorLowering.Proofs.Kernel.AxiswiseScale
import TensorLowering.Proofs.Kernel.Literals
import TensorLowering.Proofs.Execution.Operators
import TensorLowering.Proofs.Schedule.Depth

/-!
# Kernels compute what the reference execution computes

When every symbol is bound, a kernel is code with literals in the place of its parameters. Run on
the arrays that an execution has for the operands of the operator, it writes the array that the
execution has for the result, element by element (`Graph.Reachable.kernel_computes`). Elements are
of any type with a zero, a sum and a product, without laws: so equal elements are sums of the same
products in the same order.
-/

namespace TensorLowering

/-! ## Routines -/

section
variable {α : Type} [Zero α] [Add α] [Mul α]

/-- The name of the array that holds the parameter operand. -/
def OperatorKind.parameterArray : OperatorKind → String
  | axiswiseScale _ => "S"
  | deconvolution _ => "W"

/-- The routine computes an array from two others, when its integer parameters hold the numbers: its
code writes every element of the result once. -/
structure OperatorKind.Computes (kind : OperatorKind) (numbers : List (String × Int))
    (xs ss ys : Array α) : Prop where
  keys : numbers.map Prod.fst =
    (kind.routine.parameters.filter (·.kind = .integer)).map (·.name)
  writes : ∀ (arrays : String → Int → α) (s : KernelState α),
    (∀ entry ∈ numbers, s.ints entry.1 = entry.2) → Holds arrays "X" xs →
      Holds arrays kind.parameterArray ss →
        ∃ writes, Code.Emits arrays kind.routine.body s writes ∧ writes.Perm (elementWrites "Y" ys)

end

namespace Graph

section
variable {α : Type} [Zero α] [Add α] [Mul α] {g : Graph} {op : Operator} {a : Application}
  {x s y : Tensor} {values : Values α} {xs ss ys : Array α}

/-! ## Scaling -/

/-- The orders in which the channel is innermost end with it. -/
theorem getElem?_acceptedOrders {o : Order} (h : o ∈ AxiswiseScale.acceptedOrders) :
    o.axes[o.rank - 1]? = some .c := by
  simp only [AxiswiseScale.acceptedOrders, List.mem_cons, List.not_mem_nil, or_false] at h
  rcases h with rfl | rfl | rfl <;> rfl

omit [Zero α] [Add α] [Mul α] in
/-- A scaling that has a kernel scales the channel, which is the innermost axis. -/
theorem checkKernel_scaling {axis : Axis}
    (h : (OperatorKind.axiswiseScale axis).checkKernel op x y = .ok ()) :
    axis = .c ∧ x.shape.order.axes[x.shape.order.rank - 1]? = some .c := by
  simp only [OperatorKind.checkKernel, Computation.guard_eq_ok] at h
  obtain ⟨haxis, h⟩ := h
  obtain ⟨_, horder, -⟩ := Computation.bind_eq_ok.1 h
  refine ⟨not_not.1 haxis, getElem?_acceptedOrders ?_⟩
  unfold AxiswiseScale.checkOrder at horder
  split at horder
  · next hcontains => simpa using hcontains
  · cases horder

/-- The routine of a scaling computes its result. -/
theorem Attached.computes_scaling {axis : Axis} (hatt : g.Attached op a x s y)
    (ha : op.application = some a) (hkind : op.kind = .axiswiseScale axis)
    (hxs : values.lookup a.data = some xs) (hss : values.lookup a.parameter = some ss)
    (hcheck : op.kind.checkKernel op x y = .ok ()) (hfits : g.Fits y ys)
    (h : g.runOperator op values = .ok ys) :
    ∃ v, y.view g.symbols = .ok v ∧ op.kind.Computes (AxiswiseScale.numbers v) xs ss ys := by
  obtain ⟨v, hv, helements⟩ := (hatt.run_scaling_eq_ok ha hkind hxs hss).1 h
  obtain ⟨yv, hyv, hsize⟩ := hfits
  cases hyv.symm.trans (hatt.view_of_scaling hkind hv)
  rw [hkind] at hcheck ⊢
  obtain ⟨rfl, hinner⟩ := checkKernel_scaling hcheck
  -- No axis comes after the channel, so its stride is one.
  have hlength : v.extents.length = x.shape.order.rank := by
    rw [v.length_extents, (Tensor.view_eq_ok.1 hv).1]
  have hrank : x.shape.order.rank - 1 < v.extents.length := by
    rw [hlength]
    exact (List.getElem?_eq_some_iff.1 hinner).1
  have hdimension := Tensor.dimension?_of_view hv hinner (List.getElem?_eq_getElem hrank)
  rw [List.drop_eq_nil_of_le (by omega)] at hdimension
  have hextent : v.extent .c = v.extents[x.shape.order.rank - 1] := by
    rw [View.extent, hdimension]
  rw [← hextent] at hdimension
  refine ⟨v, hyv, rfl, fun arrays st hnumbers hX hS => ⟨_, ?_, .refl _⟩⟩
  refine AxiswiseScale.emits_body helements hdimension hX hS ?_ ?_
  · rw [hsize]
    exact hnumbers ("N", _) List.mem_cons_self
  · exact hnumbers ("C", _) (List.mem_cons_of_mem _ List.mem_cons_self)

/-! ## Deconvolution -/

/-- The routine of a deconvolution computes its result, whose window a signed word can hold. -/
theorem Attached.computes_deconvolution {p : Deconvolution} (hset : g.Settled)
    (hop : op ∈ g.operators) (hatt : g.Attached op a x s y) (ha : op.application = some a)
    (hkind : op.kind = .deconvolution p) (hxs : values.lookup a.data = some xs)
    (hss : values.lookup a.parameter = some ss) (h : g.runOperator op values = .ok ys) :
    ∃ xv sv yv, x.view g.symbols = .ok xv ∧ s.view g.symbols = .ok sv ∧
      y.view g.symbols = .ok yv ∧ p.ksize.h.toInt64.toInt = p.ksize.h.toNat ∧
      p.ksize.w.toInt64.toInt = p.ksize.w.toNat ∧
      op.kind.Computes (p.numbers xv sv yv) xs ss ys := by
  obtain ⟨xv, sv, yv, hxv, hsv, hyv, helements⟩ :=
    (hatt.run_deconvolution_eq_ok ha hkind hxs hss).1 h
  obtain ⟨-, -, ⟨-, hheight⟩, -, hwidth⟩ := hatt.window_eq hset hop ha hkind hxv hsv
  obtain ⟨yv', hyv', hmatches⟩ := hatt.exists_matches hset hop ha hkind hxv hsv
  cases hyv.symm.trans hyv'
  refine ⟨xv, sv, yv, hxv, hsv, hyv, hheight, hwidth, ?_⟩
  rw [hkind]
  refine ⟨rfl, fun arrays st hnumbers hX hW => ?_⟩
  exact Deconvolution.perm_writes_body hnumbers hmatches.result_axes hmatches.batch.symm hX hW
    helements

end

end Graph

/-! ## Kernels -/

/-- A role of the kernel is a pointer to the region of a tensor. -/
def Kernel.Points (k : Kernel) (t : SymbolTable) (l : Layout) (role : String) (id : TensorId) :
    Prop :=
  ∃ region offset, l.get id = .ok region ∧ t.Evaluates region.offset offset ∧
    (RoleValue.region region).binding role (toString offset.toInt) ∈ k.bindings

/-- The integer parameters of a routine have names of their own. -/
theorem OperatorKind.nodup_integers (kind : OperatorKind) :
    ((kind.routine.parameters.filter (·.kind = .integer)).map (·.name)).Nodup := by
  cases kind <;> rw [routine] <;> decide

/-- The arrays of a routine stand for the regions of the operator's tensors. -/
theorem OperatorKind.roles_regions {kind : OperatorKind} {t : SymbolTable} {l : Layout}
    {x s y : Tensor} {values : List (String × RoleValue)} (h : kind.roles t l x s y = .ok values) :
    ∃ xRegion sRegion yRegion, l.get x.id = .ok xRegion ∧ l.get s.id = .ok sRegion ∧
      l.get y.id = .ok yRegion ∧ (kind.routine.role "X", .region xRegion) ∈ values ∧
      (kind.routine.role kind.parameterArray, .region sRegion) ∈ values ∧
      (kind.routine.role "Y", .region yRegion) ∈ values := by
  cases kind with
  | axiswiseScale axis =>
    obtain ⟨xRegion, yRegion, sRegion, _, hx, hy, hs, -, rfl⟩ := AxiswiseScale.roles_eq_ok.1 h
    exact ⟨xRegion, sRegion, yRegion, hx, hs, hy, by simp [routine],
      by simp [routine, parameterArray], by simp [routine]⟩
  | deconvolution p =>
    obtain ⟨xRegion, sRegion, yRegion, _, _, _, _, _, hx, hs, hy, -, -, -, -, -, rfl⟩ :=
      Deconvolution.roles_eq_ok.1 h
    exact ⟨xRegion, sRegion, yRegion, hx, hs, hy, by simp [routine],
      by simp [routine, parameterArray], by simp [routine]⟩

namespace Graph

variable {α : Type} [Zero α] [Add α] [Mul α] {g : Graph} {op : Operator} {a : Application}
  {l : Layout} {k : Kernel} {i : OperatorId} {host : HostData α} {final : Values α}

/-- The arrays that an execution has for the operands and the result of an operator. -/
theorem Reachable.exists_run (hg : g.Reachable) (hop : g.operators[i]? = some op)
    (ha : op.application = some a) {x s y : Tensor} (hatt : g.Attached op a x s y)
    (hrun : g.execute host = .ok final) :
    ∃ xs ss ys, final.lookup a.data = some xs ∧ final.lookup a.parameter = some ss ∧
      final.lookup a.result = some ys ∧ g.Fits y ys ∧ g.runOperator op final = .ok ys := by
  obtain ⟨values, hvalues, h⟩ := Computation.bind_eq_ok.1 hrun
  obtain ⟨schedule, hschedule, h⟩ := Computation.bind_eq_ok.1 h
  rw [Execution.ofLowering_eq_ok] at hvalues hschedule
  cases hschedule.symm.trans hg.schedule_eq
  have hcoherent := hg.coherent
  have hmem := List.mem_of_getElem? hop
  have hvalid := hg.order_valid
  have hscheduled := (hvalid.mem_iff op.id).2
    ⟨op, hcoherent.operator_eq_some hmem, by simp [Operator.isApplied, ha]⟩
  obtain ⟨xs, ss, ys, hxs, hss, hys, -, hfits, h⟩ :=
    (progress_hostValues hcoherent hvalues).exists_run hcoherent hg.produced hvalid.nodup h hmem ha
      hatt hscheduled
  rw [runOperator_operands ha hxs hss] at h
  exact ⟨xs, ss, ys, hxs, hss, hys, hfits, h⟩

/-- Numbers that the integer parameters of a kernel are bound to, and with which its routine
computes the result. -/
theorem Reachable.exists_numbers (hg : g.Reachable) (hbound : g.symbols.Complete)
    (hop : op ∈ g.operators) (ha : op.application = some a) {x s y : Tensor}
    (hatt : g.Attached op a x s y) {xs ss ys : Array α} (hxs : final.lookup a.data = some xs)
    (hss : final.lookup a.parameter = some ss) (hfits : g.Fits y ys)
    (hrun : g.runOperator op final = .ok ys) (hcheck : op.kind.checkKernel op x y = .ok ())
    {values : List (String × RoleValue)} {bindings : List Binding} {slots : List MetadataSlot}
    (hvalues : op.kind.roles g.symbols l x s y = .ok values)
    (hbinds : BindsAll g.symbols [] values bindings slots) :
    ∃ numbers, op.kind.Computes numbers xs ss ys ∧
      ∀ entry ∈ numbers, SpellsNumber bindings (op.kind.routine.role entry.1) entry.2 := by
  cases hkind : op.kind with
  | axiswiseScale axis =>
    obtain ⟨v, hv, hcomputes⟩ := hatt.computes_scaling ha hkind hxs hss hcheck hfits hrun
    rw [hkind] at hcomputes hvalues
    exact ⟨_, hcomputes, AxiswiseScale.spells_numbers hbound hv hvalues hbinds⟩
  | deconvolution p =>
    obtain ⟨xv, sv, yv, hxv, hsv, hyv, hh, hw, hcomputes⟩ :=
      hatt.computes_deconvolution hg.settled hop ha hkind hxs hss hrun
    rw [hkind] at hcomputes hvalues
    exact ⟨_, hcomputes, Deconvolution.spells_numbers hbound hxv hsv hyv hh hw hvalues hbinds⟩

/-- When every symbol is bound, the kernel of an operator computes what the reference execution
computes. Its pointers are the regions of the operator's tensors and its integer parameters are
literals; and when its code starts with these literals, on the arrays that the execution has for the
operands, it writes every element of the array that the execution has for the result, each once.

Nothing is asked of the arithmetic of elements, so the elements are also the same expressions.
Nothing is asked of the parameters of a deconvolution, because its window is a word with one reading
wherever the execution succeeds. -/
theorem Reachable.kernel_computes (hg : g.Reachable) (hbound : g.symbols.Complete)
    (hop : g.operator i = .ok op) (ha : op.application = some a) (hkernel : g.kernel l op = .ok k)
    (hrun : g.execute host = .ok final) :
    ∃ xs ss ys, final.get a.data = .ok xs ∧ final.get a.parameter = .ok ss ∧
      final.get a.result = .ok ys ∧
      k.source = op.kind.routine.source k.entry (k.bindings.map Binding.expression) ∧
      k.Points g.symbols l (op.kind.routine.role "X") a.data ∧
      k.Points g.symbols l (op.kind.routine.role op.kind.parameterArray) a.parameter ∧
      k.Points g.symbols l (op.kind.routine.role "Y") a.result ∧
      (∃ ints, k.Starts op.kind.routine ints) ∧
      ∀ (arrays : String → Int → α) (s : KernelState α), k.Starts op.kind.routine s.ints →
        s.writes = [] → Holds arrays "X" xs → Holds arrays op.kind.parameterArray ss →
        (op.kind.routine.body.run arrays s).writes.Perm (elementWrites "Y" ys) := by
  have hop := operator_eq_ok.1 hop
  have hmem := List.mem_of_getElem? hop
  obtain ⟨x, s, y, hatt⟩ := hg.coherent.attached op hmem a ha
  obtain ⟨d, p, r, x', s', y', values, hd, hp, hr, hx, hs, hy, hcheck, hvalues, hk⟩ :=
    kernel_eq_ok.1 hkernel
  cases (Operator.input_dataSlot ha).symm.trans hd
  cases (Operator.input_parameterSlot ha).symm.trans hp
  cases (Operator.output_resultSlot ha).symm.trans hr
  cases (tensor_eq_ok.2 hatt.data).symm.trans hx
  cases (tensor_eq_ok.2 hatt.parameter).symm.trans hs
  cases (tensor_eq_ok.2 hatt.result).symm.trans hy
  have hkeys := OperatorKind.roles_keys hvalues
  have hnodup : (values.map Prod.fst).Nodup := hkeys ▸ op.kind.nodup_roles
  obtain ⟨bindings, slots, hbinds, rfl⟩ := (Routine.instantiate_eq_ok hkeys hnodup).1 hk
  obtain ⟨xs, ss, ys, hxs, hss, hys, hfits, hruns⟩ := hg.exists_run hop ha hatt hrun
  obtain ⟨numbers, hcomputes, hspells⟩ :=
    hg.exists_numbers hbound hmem ha hatt hxs hss hfits hruns hcheck hvalues hbinds
  obtain ⟨xRegion, sRegion, yRegion, hxl, hsl, hyl, hxr, hsr, hyr⟩ :=
    OperatorKind.roles_regions hvalues
  have hpoints : ∀ {role : String} {id : TensorId} {z : Tensor} {region : Allocation},
      g.tensors[id]? = some z → l.get z.id = .ok region → (role, .region region) ∈ values →
        Kernel.Points ⟨(KernelName.ofOperator op).text, op.kind.routine.source
          (KernelName.ofOperator op).text (bindings.map Binding.expression), bindings, slots⟩
          g.symbols l role id := by
    intro role id z region hz hregion hvalue
    obtain ⟨n, hn, hbinding⟩ := hbinds.exists_literal hbound hvalue
    rw [hg.coherent.tensor_id id z hz] at hregion
    exact ⟨region, n, hregion, hn, hbinding⟩
  have hroles : (bindings.map Binding.role).Nodup := hbinds.keys ▸ hnodup
  refine ⟨xs, ss, ys, ?_, ?_, ?_, rfl, hpoints hatt.data hxl hxr, hpoints hatt.parameter hsl hsr,
    hpoints hatt.result hyl hyr, Kernel.exists_starts hcomputes.keys ?_ hspells, ?_⟩
  · rw [Values.get, hxs]
  · rw [Values.get, hss]
  · rw [Values.get, hys]
  · rw [hcomputes.keys]
    exact op.kind.nodup_integers
  · intro arrays st hstarts hempty hX hS
    obtain ⟨writes, hemits, hwrites⟩ := hcomputes.writes arrays st
      (hstarts.eq_number hcomputes.keys hroles hspells) hX hS
    rw [Code.Emits, hempty, List.nil_append] at hemits
    rwa [hemits]

/-- A deconvolution of a row of two elements by two kernels of two weights. -/
def rowDeconvolution : Graph :=
  empty.replay [.addTensor .input "x" .nchw [.value 1, .value 1, .value 1, .value 2],
    .addTensor .weight "w" .nchw [.value 2, .value 1, .value 1, .value 2],
    .addOperator none (.deconvolution ⟨⟨1, 2⟩, ⟨1, 1⟩, ⟨0, 0⟩, by decide, by decide⟩),
    .apply 0 [0, 1], .markOutput 2]

/-- A layout of `rowDeconvolution`. -/
def rowDeconvolutionLayout : Layout where
  allocations := [⟨0, "x", .dynamic, .value 0, .value 16⟩, ⟨1, "w", .static, .value 0, .value 16⟩,
    ⟨2, "Deconvolution2D0_y", .dynamic, .value 16, .value 32⟩]
  staticSize := .value 16
  dynamicSize := .value 48
  alignment := 16

/-- The loops visit the columns of both channels of the result in turn, and write the two rows that
the reference execution computes. -/
theorem kernel_computes_rowDeconvolution :
    ∃ op k ints, rowDeconvolution.operator 0 = .ok op ∧
      rowDeconvolution.kernel rowDeconvolutionLayout op = .ok k ∧
      k.Starts Deconvolution.routine ints ∧
      ∀ arrays : String → Int → Int, Holds arrays "X" #[1, 2] → Holds arrays "W" #[3, 5, 7, 11] →
        (Deconvolution.routine.body.run arrays ⟨ints, fun _ => 0, []⟩).writes.Perm
          (elementWrites "Y" #[3, 11, 10, 7, 25, 22]) := by
  obtain ⟨op, hop⟩ : ∃ op, rowDeconvolution.operator 0 = .ok op := ⟨_, rfl⟩
  have hsome : ((rowDeconvolution.operator 0 >>= rowDeconvolution.kernel rowDeconvolutionLayout).map
      fun k => k.slots.length) = .ok 0 := by decide +kernel
  rw [hop, Computation.ok_bind] at hsome
  obtain ⟨k, hk, -⟩ := Computation.map_eq_ok.1 hsome
  have hexec : rowDeconvolution.execute (α := Int) ⟨[("x", #[1, 2])], [("w", #[3, 5, 7, 11])]⟩ =
      .ok [(2, #[3, 11, 10, 7, 25, 22]), (0, #[1, 2]), (1, #[3, 5, 7, 11])] := by decide +kernel
  have happlied : ∃ a, op.application = some a ∧ a.data = 0 ∧ a.parameter = 1 ∧ a.result = 2 ∧
      op.kind.routine = Deconvolution.routine ∧ op.kind.parameterArray = "W" := by
    cases hop
    exact ⟨_, rfl, rfl, rfl, rfl, rfl, rfl⟩
  obtain ⟨a, ha, hdata, hparameter, hresult, hroutine, hname⟩ := happlied
  obtain ⟨xs, ss, ys, hxs, hss, hys, -, -, -, -, ⟨ints, hints⟩, hrun⟩ :=
    Reachable.kernel_computes ⟨_, rfl⟩ (by decide) hop ha hk hexec
  rw [hdata] at hxs
  rw [hparameter] at hss
  rw [hresult] at hys
  cases hxs
  cases hss
  cases hys
  rw [hroutine] at hints hrun
  rw [hname] at hrun
  exact ⟨op, k, ints, hop, hk, hints, fun arrays => hrun arrays ⟨ints, fun _ => 0, []⟩ hints rfl⟩

end Graph

end TensorLowering
