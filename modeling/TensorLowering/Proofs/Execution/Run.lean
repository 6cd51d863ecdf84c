import TensorLowering.Execution.Run
import TensorLowering.Proofs.Execution.Access
import TensorLowering.Proofs.Execution.View
import TensorLowering.Proofs.Graph.Check

/-!
# What an execution computes

While a graph is executed, the tensors that have an array are those of the host and the results of
the operators that have run, and every array has as many elements as the view of its tensor
(`Graph.Progress`). One operator keeps this (`Graph.Progress.step`), and an array that is there is
never replaced (`Graph.Progress.lookup_run`). An operator reads nothing but the arrays of its
operands (`runOperator_congr`).
-/

namespace TensorLowering

section
variable {α : Type} {g : Graph} {op : Operator} {a : Application} {values others : Values α}
  {data : Array α}

/-! ## Operands and results -/

theorem Execution.ofLowering_eq_ok {x : Lowering α} {r : α} :
    Execution.ofLowering x = .ok r ↔ x = .ok r := by
  cases x <;> simp [ofLowering]

/-- An operand has an array when the operand's tensor has one. -/
theorem operandData_eq_ok {slot : String} {x : Tensor} :
    operandData g op slot values = .ok (x, data) ↔
      ∃ id, op.input slot = .ok id ∧ g.tensor id = .ok x ∧ values.lookup id = some data := by
  simp only [operandData, Computation.bind_eq_ok, Execution.ofLowering_eq_ok]
  constructor
  · rintro ⟨id, hid, x', hx, h⟩
    split at h
    · next data' hdata =>
      cases h
      exact ⟨id, hid, hx, hdata⟩
    · cases h
  · rintro ⟨id, hid, hx, hdata⟩
    exact ⟨id, hid, x, hx, by rw [hdata]; rfl⟩

section
variable {x s y : Tensor}

theorem Graph.Attached.operandData_data (hatt : g.Attached op a x s y)
    (ha : op.application = some a) (hdata : values.lookup a.data = some data) :
    operandData g op op.kind.dataSlot values = .ok (x, data) :=
  operandData_eq_ok.2 ⟨a.data, Operator.input_dataSlot ha, Graph.tensor_eq_ok.2 hatt.data, hdata⟩

theorem Graph.Attached.operandData_parameter (hatt : g.Attached op a x s y)
    (ha : op.application = some a) (hdata : values.lookup a.parameter = some data) :
    operandData g op op.kind.parameterSlot values = .ok (s, data) :=
  operandData_eq_ok.2
    ⟨a.parameter, Operator.input_parameterSlot ha, Graph.tensor_eq_ok.2 hatt.parameter, hdata⟩

end

variable [Zero α] [Add α] [Mul α]

/-- An operator reads nothing but the arrays of its operands. -/
theorem runOperator_congr (ha : op.application = some a)
    (hdata : others.lookup a.data = values.lookup a.data)
    (hparameter : others.lookup a.parameter = values.lookup a.parameter) :
    g.runOperator op others = g.runOperator op values := by
  simp only [Graph.runOperator, operandData, Operator.input_dataSlot ha,
    Operator.input_parameterSlot ha, Execution.ofLowering, Computation.ok_bind, hdata, hparameter]

/-- An operator that runs gives the same result on nothing but the arrays of its operands. -/
theorem runOperator_operands {xs ss : Array α} (ha : op.application = some a)
    (hxs : values.lookup a.data = some xs) (hss : values.lookup a.parameter = some ss) :
    g.runOperator op [(a.data, xs), (a.parameter, ss)] = g.runOperator op values := by
  refine runOperator_congr ha ?_ ?_
  · rw [List.lookup_cons_self, hxs]
  · by_cases hsame : a.parameter = a.data
    · rw [hsame, List.lookup_cons_self, hxs]
    · rw [List.lookup_cons, beq_eq_false_iff_ne.2 hsame, hss]
      exact List.lookup_cons_self

/-- An operator that runs has both operands. -/
theorem operands_of_runOperator (ha : op.application = some a)
    (h : g.runOperator op values = .ok data) :
    ∃ xs ss, values.lookup a.data = some xs ∧ values.lookup a.parameter = some ss := by
  obtain ⟨⟨x, xs⟩, hx, h⟩ := Computation.bind_eq_ok.1 h
  obtain ⟨⟨s, ss⟩, hs, h⟩ := Computation.bind_eq_ok.1 h
  obtain ⟨id, hid, -, hxs⟩ := operandData_eq_ok.1 hx
  cases (Operator.input_dataSlot ha).symm.trans hid
  obtain ⟨id, hid, -, hss⟩ := operandData_eq_ok.1 hs
  cases (Operator.input_parameterSlot ha).symm.trans hid
  exact ⟨xs, ss, hxs, hss⟩

section
variable {x s y : Tensor} {xs ss ys : Array α}

/-- A scaling runs on a view of its data. -/
theorem Graph.Attached.run_scaling_eq_ok {axis : Axis} {ys : Array α}
    (hatt : g.Attached op a x s y) (ha : op.application = some a)
    (hkind : op.kind = .axiswiseScale axis) (hxs : values.lookup a.data = some xs)
    (hss : values.lookup a.parameter = some ss) :
    g.runOperator op values = .ok ys ↔
      ∃ v, x.view g.symbols = .ok v ∧ AxiswiseScale.elements v axis xs ss = .ok ys := by
  simp only [Graph.runOperator, hatt.operandData_data ha hxs, hatt.operandData_parameter ha hss,
    Computation.ok_bind]
  simp only [hkind, Computation.bind_eq_ok, Execution.ofLowering_eq_ok]

/-- A deconvolution runs on views of its operands and of its result. -/
theorem Graph.Attached.run_deconvolution_eq_ok {p : Deconvolution}
    {ys : Array α} (hatt : g.Attached op a x s y) (ha : op.application = some a)
    (hkind : op.kind = .deconvolution p) (hxs : values.lookup a.data = some xs)
    (hss : values.lookup a.parameter = some ss) :
    g.runOperator op values = .ok ys ↔
      ∃ xv sv yv, x.view g.symbols = .ok xv ∧ s.view g.symbols = .ok sv ∧
        y.view g.symbols = .ok yv ∧ p.elements xv sv yv xs ss = .ok ys := by
  have hresult := Operator.output_resultSlot ha
  have htensor := Graph.tensor_eq_ok.2 hatt.result
  simp only [Graph.runOperator, hatt.operandData_data ha hxs, hatt.operandData_parameter ha hss,
    Computation.ok_bind]
  rw [hkind] at hresult ⊢
  simp only [hresult, htensor, Computation.bind_eq_ok, Execution.ofLowering_eq_ok,
    Except.ok.injEq, exists_eq_left', exists_and_left]

omit [Zero α] [Add α] [Mul α] in
/-- The result of a scaling has the view of the data. -/
theorem Graph.Attached.view_of_scaling {axis : Axis} {v : View} (hatt : g.Attached op a x s y)
    (hkind : op.kind = .axiswiseScale axis) (hv : x.view g.symbols = .ok v) :
    y.view g.symbols = .ok v := by
  obtain ⟨t, -, hshape⟩ := hatt.shape
  rw [hkind] at hshape
  exact Tensor.view_congr (Except.ok.inj hshape).symm hv

end

/-! ## The sizes of arrays -/

omit [Zero α] [Add α] in
theorem size_of_scaling {v : View} {axis : Axis} {scale result : Array α}
    (h : AxiswiseScale.elements v axis data scale = .ok result) : result.size = data.size := by
  obtain ⟨elements, helements, h⟩ := Computation.bind_eq_ok.1 h
  cases h
  have hlen := (Computation.mapM_eq_ok.1 helements).length_eq
  simpa using hlen.symm

/-- The array has as many elements as the tensor. -/
def Graph.Fits (g : Graph) (x : Tensor) (data : Array α) : Prop :=
  ∃ v, x.view g.symbols = .ok v ∧ data.size = v.size

/-- The array that an operator computes fits its result, if that of the data operand fits. -/
theorem fits_of_runOperator {x s y : Tensor} (ha : op.application = some a)
    (hatt : g.Attached op a x s y) (hx : ∀ xs, values.lookup a.data = some xs → g.Fits x xs)
    (h : g.runOperator op values = .ok data) : g.Fits y data := by
  obtain ⟨xs, ss, hxs, hss⟩ := operands_of_runOperator ha h
  cases hkind : op.kind with
  | axiswiseScale axis =>
    obtain ⟨v, hv, helements⟩ := (hatt.run_scaling_eq_ok ha hkind hxs hss).1 h
    obtain ⟨v', hv', hsize⟩ := hx xs hxs
    cases hv.symm.trans hv'
    exact ⟨v, hatt.view_of_scaling hkind hv, (size_of_scaling helements).trans hsize⟩
  | deconvolution p =>
    obtain ⟨xv, sv, yv, -, -, hyv, helements⟩ :=
      (hatt.run_deconvolution_eq_ok ha hkind hxs hss).1 h
    exact ⟨yv, hyv, (Deconvolution.elements_eq_ok.1 helements).1⟩

end

/-- The arrays among which the host supplies tensors of a role; only inputs and weights are
supplied. -/
def HostData.arrays? (host : HostData α) : Role → Option (List (String × Array α))
  | .input => some host.inputs
  | .weight => some host.weights
  | .output | .intermediate => none

/-! ## Progress of an execution -/

namespace Graph

section
variable {α : Type} {g : Graph} {s : Schedule} {done rest : List OperatorId}
  {values final : Values α}

/-- The operators in `done` have run: the tensors that have an array are those of the host and the
results of these operators, and every array fits its tensor. -/
structure Progress (g : Graph) (done : List OperatorId) (values : Values α) : Prop where
  valued : ∀ x ∈ g.tensors, (∃ data, values.lookup x.id = some data) ↔
    x.role = .input ∨ x.role = .weight ∨ ∃ o ∈ done, x.producer = some o
  fits : ∀ x ∈ g.tensors, ∀ data, values.lookup x.id = some data → g.Fits x data

/-- The arrays of the host, collected tensor by tensor. -/
theorem hostValues_eq_ok {host : HostData α} (h : g.hostValues host = .ok values) :
    ∃ supplied : Tensor → Option (Array α),
      (∀ x ∈ g.tensors, g.hostArray host x = .ok (supplied x)) ∧
      values = g.tensors.filterMap fun x => (supplied x).map (x.id, ·) := by
  obtain ⟨arrays, harrays, h⟩ := Computation.bind_eq_ok.1 h
  cases h
  have hall : List.Forall₂ (fun x entry => ∃ data?, g.hostArray host x = .ok data? ∧
      entry = data?.map (x.id, ·)) g.tensors arrays := by
    refine (Computation.mapM_eq_ok.1 harrays).imp fun x entry hentry => ?_
    obtain ⟨data?, hdata, hentry⟩ := Computation.bind_eq_ok.1 hentry
    cases hentry
    exact ⟨data?, hdata, rfl⟩
  refine ⟨fun x => (g.hostArray host x).toOption.join, fun x hx => ?_, ?_⟩
  · obtain ⟨entry, -, data?, hdata, -⟩ := Computation.exists_result_of_mem hall hx
    simp [hdata, Except.toOption]
  · have htable : g.tensors.map (fun x => (g.hostArray host x).toOption.join.map (x.id, ·)) =
        arrays.map id := by
      refine Computation.map_eq_map hall fun x entry hentry => ?_
      obtain ⟨data?, hdata, rfl⟩ := hentry
      simp [hdata, Except.toOption]
    rw [List.map_id] at htable
    rw [← htable, List.filterMap_map]
    rfl

/-- The arrays of the host are those of the inputs and weights. -/
theorem lookup_hostValues {host : HostData α} (hg : g.Coherent)
    (h : g.hostValues host = .ok values) {x : Tensor} (hx : x ∈ g.tensors) :
    g.hostArray host x = .ok (values.lookup x.id) := by
  obtain ⟨supplied, hsupplied, rfl⟩ := hostValues_eq_ok h
  rw [hsupplied x hx, Computation.lookup_filterMap hg.nodup_ids hx]

/-- An array of the host belongs to a tensor that it is supplied for. -/
theorem mem_hostValues {host : HostData α} (h : g.hostValues host = .ok values)
    {entry : TensorId × Array α} (hentry : entry ∈ values) :
    ∃ x ∈ g.tensors, x.id = entry.1 ∧ g.hostArray host x = .ok (some entry.2) := by
  obtain ⟨supplied, hsupplied, rfl⟩ := hostValues_eq_ok h
  obtain ⟨x, hx, hentry⟩ := List.mem_filterMap.1 hentry
  obtain ⟨data, hdata, rfl⟩ := Option.map_eq_some_iff.1 hentry
  exact ⟨x, hx, rfl, by rw [hsupplied x hx, hdata]⟩

/-- The arrays of the host are those of different tensors. -/
theorem nodup_hostValues {host : HostData α} (hg : g.Coherent)
    (h : g.hostValues host = .ok values) : (values.map Prod.fst).Nodup := by
  obtain ⟨supplied, -, rfl⟩ := hostValues_eq_ok h
  refine hg.nodup_ids.sublist ?_
  induction g.tensors with
  | nil => exact .slnil
  | cons x rest ih =>
    cases hx : supplied x with
    | none => simpa [hx] using ih.cons _
    | some data => simpa [hx] using ih

section
variable {host : HostData α} {x : Tensor} {data? : Option (Array α)}

theorem hostArray_of_none (h : host.arrays? x.role = none) : g.hostArray host x = .ok none := by
  cases hrole : x.role with
  | input | weight => simp [hrole, HostData.arrays?] at h
  | output | intermediate => simp [hostArray, hrole, pure, Except.pure]

/-- An array that is supplied is found by the name of the tensor, and has to fit. -/
theorem hostArray_of_some {arrays : List (String × Array α)}
    (h : host.arrays? x.role = some arrays) :
    g.hostArray host x = .ok data? ↔
      ∃ data, arrays.lookup x.name = some data ∧ g.Fits x data ∧ some data = data? := by
  cases hrole : x.role with
  | output | intermediate => simp [hrole, HostData.arrays?] at h
  | input | weight =>
    simp only [hrole, HostData.arrays?, Option.some.injEq] at h
    subst h
    simp only [hostArray, hrole]
    constructor
    · intro h
      split at h
      · cases h
      · next data hdata =>
        obtain ⟨v, hv, h⟩ := Computation.bind_eq_ok.1 h
        obtain ⟨hsize, h⟩ := Computation.guard_eq_ok.1 h
        exact ⟨data, hdata, ⟨v, hv, by simpa using hsize⟩, Computation.pure_eq_ok.1 h⟩
    · rintro ⟨data, hdata, ⟨v, hv, hsize⟩, rfl⟩
      simp only [hdata, hv, Computation.ok_bind]
      exact Computation.guard_eq_ok.2 ⟨by simpa using hsize, rfl⟩

/-- The host supplies just the inputs and weights, with arrays that fit. -/
theorem hostArray_eq_ok (h : g.hostArray host x = .ok data?) :
    ((∃ data, data? = some data) ↔ x.role = .input ∨ x.role = .weight) ∧
      ∀ data, data? = some data → g.Fits x data := by
  cases harrays : host.arrays? x.role with
  | none =>
    rw [hostArray_of_none harrays] at h
    cases h
    cases hrole : x.role <;> simp [hrole, HostData.arrays?] at harrays ⊢
  | some arrays =>
    obtain ⟨data, -, hfits, rfl⟩ := (hostArray_of_some harrays).1 h
    refine ⟨⟨fun _ => ?_, fun _ => ⟨data, rfl⟩⟩, fun data' heq => Option.some.inj heq ▸ hfits⟩
    cases hrole : x.role <;> simp [hrole, HostData.arrays?] at harrays ⊢

end

/-- Before any operator has run, just the inputs and weights have arrays. -/
theorem progress_hostValues {host : HostData α} (hg : g.Coherent)
    (h : g.hostValues host = .ok values) : g.Progress [] values := by
  refine ⟨fun x hx => ?_, fun x hx data hdata => ?_⟩
  · rw [(hostArray_eq_ok (lookup_hostValues hg h hx)).1]
    simp
  · exact (hostArray_eq_ok (lookup_hostValues hg h hx)).2 data hdata

/-- The tensor that an operator produces is its result. -/
theorem Produced.eq_result {op : Operator} {a : Application} {x x' s' y : Tensor}
    (hedges : g.Produced) (hg : g.Coherent) (hop : op ∈ g.operators)
    (ha : op.application = some a) (hatt : g.Attached op a x' s' y) (hx : x ∈ g.tensors)
    (hproducer : x.producer = some op.id) : x = y := by
  have hself := hg.tensor_eq_some hx
  obtain ⟨-, op', a', hop', ha', hresult⟩ := hedges x.id x op.id hself hproducer
  cases (hg.operator_eq_some hop).symm.trans hop'
  cases ha.symm.trans ha'
  rw [← hresult, hatt.result] at hself
  exact (Option.some.inj hself).symm

variable [Zero α] [Add α] [Mul α]

/-- The operator runs on the arrays computed so far: it was applied to `x` and `s`, and computes the
array of `y`. -/
structure Runs (g : Graph) (values : Values α) (op : Operator) (a : Application) (x s y : Tensor)
    (data : Array α) : Prop where
  mem : op ∈ g.operators
  applied : op.application = some a
  attached : g.Attached op a x s y
  run : g.runOperator op values = .ok data

/-- A run of operators is a run of the first and of the rest on what it adds. -/
theorem runOperators_cons {id : OperatorId} (hg : g.Coherent)
    (h : g.runOperators values (id :: rest) = .ok final) :
    ∃ op a x s y data, g.operator id = .ok op ∧ op.id = id ∧ g.Runs values op a x s y data ∧
      g.runOperators ((a.result, data) :: values) rest = .ok final := by
  obtain ⟨op, hop, h⟩ := Computation.bind_eq_ok.1 h
  obtain ⟨data, hdata, h⟩ := Computation.bind_eq_ok.1 h
  obtain ⟨result, hresult, h⟩ := Computation.bind_eq_ok.1 h
  rw [Execution.ofLowering_eq_ok] at hop hresult
  have hop' := operator_eq_ok.1 hop
  have hmem := List.mem_of_getElem? hop'
  cases ha : op.application with
  | none => simp [Operator.output, Operator.slot, Operator.outputs, ha] at hresult
  | some a =>
    cases (Operator.output_resultSlot ha).symm.trans hresult
    obtain ⟨x, s, y, hatt⟩ := hg.attached op hmem a ha
    exact ⟨op, a, x, s, y, data, hop, hg.operator_id _ _ hop', ⟨hmem, ha, hatt, hdata⟩, h⟩

section
variable {op : Operator} {a : Application} {x s' y : Tensor} {data : Array α}

/-- An operator gives its result an array. -/
theorem Runs.lookup_self (hr : g.Runs values op a x s' y data) (hg : g.Coherent) :
    ((a.result, data) :: values).lookup y.id = some data := by
  rw [← hg.tensor_id _ _ hr.attached.result, List.lookup_cons_self]

/-- An operator changes no other array. -/
theorem Runs.lookup_other (hr : g.Runs values op a x s' y data) (hg : g.Coherent) {z : Tensor}
    (hz : z ∈ g.tensors) (hne : z ≠ y) :
    ((a.result, data) :: values).lookup z.id = values.lookup z.id := by
  have hid : (z.id == a.result) = false := by
    refine beq_eq_false_iff_ne.2 fun hid => hne ?_
    refine hg.eq_of_id hz (List.mem_of_getElem? hr.attached.result) (hid.trans ?_)
    exact (hg.tensor_id _ _ hr.attached.result).symm
  rw [List.lookup_cons, hid]

/-- One operator makes progress: its result gets an array that fits. -/
theorem Progress.step (hp : g.Progress done values) (hg : g.Coherent) (hedges : g.Produced)
    (hr : g.Runs values op a x s' y data) :
    g.Progress (done ++ [op.id]) ((a.result, data) :: values) := by
  have hatt := hr.attached
  have hfits : g.Fits y data := by
    refine fits_of_runOperator hr.applied hatt (fun xs hxs => ?_) hr.run
    refine hp.fits x (List.mem_of_getElem? hatt.data) xs ?_
    rwa [hg.tensor_id _ _ hatt.data]
  refine ⟨fun z hz => ?_, fun z hz zs hzs => ?_⟩
  · by_cases hzy : z = y
    · subst hzy
      rw [hr.lookup_self hg]
      simp [hatt.producer]
    · rw [hr.lookup_other hg hz hzy, hp.valued z hz]
      have hnot : z.producer ≠ some op.id :=
        fun hproducer => hzy (hedges.eq_result hg hr.mem hr.applied hatt hz hproducer)
      simp [or_and_right, exists_or, hnot]
  · by_cases hzy : z = y
    · subst hzy
      rw [hr.lookup_self hg] at hzs
      cases hzs
      exact hfits
    · rw [hr.lookup_other hg hz hzy] at hzs
      exact hp.fits z hz zs hzs

/-- The result of an operator that has not run yet has no array. -/
theorem Progress.lookup_result (hp : g.Progress done values) (hedges : g.Produced)
    (hr : g.Runs values op a x s' y data) (hfresh : op.id ∉ done) : values.lookup y.id = none := by
  have hy := List.mem_of_getElem? hr.attached.result
  have hproducer := hr.attached.producer
  have hrole := (hedges _ y op.id hr.attached.result hproducer).1
  refine Option.eq_none_iff_forall_ne_some.2 fun ys hys => ?_
  rcases (hp.valued y hy).1 ⟨ys, hys⟩ with hsupplied | hsupplied | ⟨o, ho, hproducer'⟩
  · simp [hsupplied] at hrole
  · simp [hsupplied] at hrole
  · rw [hproducer] at hproducer'
    cases hproducer'
    exact hfresh ho

end

/-! ## Whole runs -/

/-- A run makes progress by all its operators. -/
theorem Progress.all (hp : g.Progress done values) (hg : g.Coherent) (hedges : g.Produced)
    (h : g.runOperators values rest = .ok final) : g.Progress (done ++ rest) final := by
  induction rest generalizing done values with
  | nil =>
    cases h
    rwa [List.append_nil]
  | cons id rest ih =>
    obtain ⟨op, a, x, s', y, data, -, rfl, hr, hrest⟩ := runOperators_cons hg h
    have hfinal := ih (hp.step hg hedges hr) hrest
    rwa [List.append_assoc, List.singleton_append] at hfinal

/-- A run of a checked graph makes progress by all its operators. -/
theorem Progress.run (hp : g.Progress done values) (hg : g.Coherent) (hc : g.Checked s)
    (h : g.runOperators values rest = .ok final) : g.Progress (done ++ rest) final :=
  hp.all hg (hc.edges hg) h

/-- An array that is there is never replaced. -/
theorem Progress.lookup_run (hp : g.Progress done values) (hg : g.Coherent) (hedges : g.Produced)
    (hnodup : (done ++ rest).Nodup) (h : g.runOperators values rest = .ok final) {z : Tensor}
    (hz : z ∈ g.tensors) {zs : Array α} (hzs : values.lookup z.id = some zs) :
    final.lookup z.id = some zs := by
  induction rest generalizing done values with
  | nil =>
    cases h
    exact hzs
  | cons id rest ih =>
    obtain ⟨op, a, x, s', y, data, -, rfl, hr, hrest⟩ := runOperators_cons hg h
    have hfresh : op.id ∉ done :=
      fun hmem => (List.nodup_append.1 hnodup).2.2 _ hmem _ List.mem_cons_self rfl
    have hne : z ≠ y := by
      rintro rfl
      rw [hp.lookup_result hedges hr hfresh] at hzs
      cases hzs
    refine ih (hp.step hg hedges hr) ?_ hrest ?_
    · rwa [List.append_assoc, List.singleton_append]
    · rwa [hr.lookup_other hg hz hne]

/-- The arrays of an operator that has run: those it read, and that which it computed from them. -/
theorem Progress.exists_run (hp : g.Progress done values) (hg : g.Coherent) (hedges : g.Produced)
    (hnodup : (done ++ rest).Nodup) (h : g.runOperators values rest = .ok final) {op : Operator}
    {a : Application} {x s' y : Tensor} (hop : op ∈ g.operators) (ha : op.application = some a)
    (hatt : g.Attached op a x s' y) (hrun : op.id ∈ rest) :
    ∃ xs ss ys, final.lookup a.data = some xs ∧ final.lookup a.parameter = some ss ∧
      final.lookup a.result = some ys ∧ g.Fits x xs ∧ g.Fits y ys ∧
      g.runOperator op [(a.data, xs), (a.parameter, ss)] = .ok ys := by
  induction rest generalizing done values with
  | nil => cases hrun
  | cons id rest ih =>
    obtain ⟨op', a', x', s'', y', data, -, rfl, hr, hrest⟩ := runOperators_cons hg h
    have hnext := hp.step hg hedges hr
    have hnodup' : ((done ++ [op'.id]) ++ rest).Nodup := by
      rwa [List.append_assoc, List.singleton_append]
    rcases List.mem_cons.1 hrun with hid | hlater
    · have hsame := hg.operator_eq_some hop
      rw [hid, hg.operator_eq_some hr.mem] at hsame
      cases hsame
      cases ha.symm.trans hr.applied
      obtain ⟨xs, ss, hxs, hss⟩ := operands_of_runOperator ha hr.run
      -- An array that is there after this operator is there in the end.
      have hkeep : ∀ {i : TensorId} {z : Tensor} {zs : Array α}, g.tensors[i]? = some z →
          ((a.result, data) :: values).lookup i = some zs → final.lookup i = some zs := by
        intro i z zs hz hzs
        rw [← hg.tensor_id i z hz] at hzs ⊢
        exact hnext.lookup_run hg hedges hnodup' hrest (List.mem_of_getElem? hz) hzs
      have hold : ∀ {i : TensorId} {z : Tensor}, g.tensors[i]? = some z → i ≠ a.result →
          ((a.result, data) :: values).lookup i = values.lookup i := by
        intro i z hz hne
        rw [List.lookup_cons, beq_eq_false_iff_ne.2 hne]
      have hxfits := hp.fits x (List.mem_of_getElem? hatt.data) xs
        (by rw [hg.tensor_id _ x hatt.data, hxs])
      refine ⟨xs, ss, data, ?_, ?_, ?_, hxfits, ?_, ?_⟩
      · exact hkeep hatt.data ((hold hatt.data (Nat.ne_of_lt hatt.data_lt)).trans hxs)
      · exact hkeep hatt.parameter
          ((hold hatt.parameter (Nat.ne_of_lt hatt.parameter_lt)).trans hss)
      · exact hkeep hatt.result List.lookup_cons_self
      · refine fits_of_runOperator ha hatt (fun xs' hxs' => ?_) hr.run
        cases hxs.symm.trans hxs'
        exact hxfits
      · rw [runOperator_operands ha hxs hss, hr.run]
    · exact ih hnext hnodup' hrest hlater

end

end Graph

end TensorLowering
