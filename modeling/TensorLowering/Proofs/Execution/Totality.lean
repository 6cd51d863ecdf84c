import Mathlib.Algebra.Ring.Int.Defs
import TensorLowering.Proofs.Execution.Operators

/-!
# Executions that succeed

An execution needs data for the inputs and weights, and nothing else. The schedule has feeders run
first, so in a grounded graph every operator finds the arrays of its operands, and all of them run
(`Graph.Grounded`, `Graph.Progress.exists_final`). An execution therefore succeeds just when the
host supplies what is asked for (`HostData.Supplies`, `Graph.Reachable.execute_total`).
-/

namespace TensorLowering

namespace Graph

/-! ## Runs that succeed -/

/-- Every operand of an applied operator is supplied by the host or computed by an operator. -/
def Grounded (g : Graph) : Prop :=
  ∀ op ∈ g.operators, ∀ p ∈ op.inputs, ∀ x ∈ g.tensors[p.2]?,
    x.role = .input ∨ x.role = .weight ∨ x.producer.isSome

instance (g : Graph) : Decidable g.Grounded :=
  inferInstanceAs (Decidable (∀ op ∈ g.operators, ∀ p ∈ op.inputs, ∀ x ∈ g.tensors[p.2]?, _))

section
variable {α : Type} {g : Graph} {s : Schedule} {done rest : List OperatorId}
  {values final : Values α} {x : Tensor} {i : TensorId}

/-- An operand has an array once the operator that computes it has run. -/
theorem Progress.exists_operand (hp : g.Progress done values) (hg : g.Coherent)
    (hx : g.tensors[i]? = some x)
    (hsource : x.role = .input ∨ x.role = .weight ∨ x.producer.isSome)
    (hdone : ∀ o, x.producer = some o → o ∈ done) :
    ∃ xs, values.lookup i = some xs ∧ g.Fits x xs := by
  have hmem := List.mem_of_getElem? hx
  have hvalued := (hp.valued x hmem).2 <| by
    rcases hsource with hrole | hrole | hproducer
    · exact .inl hrole
    · exact .inr (.inl hrole)
    · obtain ⟨o, ho⟩ := Option.isSome_iff_exists.1 hproducer
      exact .inr (.inr ⟨o, hdone o ho, ho⟩)
  obtain ⟨xs, hxs⟩ := hvalued
  exact ⟨xs, hg.tensor_id i x hx ▸ hxs, hp.fits x hmem xs hxs⟩

variable [Zero α] [Add α] [Mul α]

/-- In a grounded graph all operators of a valid schedule run, from any of them on. -/
theorem Progress.exists_final (hp : g.Progress done values) (hg : g.Reachable) (hground : g.Grounded)
    (hwords : ∀ op ∈ g.operators, ∀ p, op.kind = .deconvolution p → p.Signed) (hv : s.Valid g)
    (hsplit : s.ordered = done ++ rest) : ∃ final, g.runOperators values rest = .ok final := by
  induction rest generalizing done values with
  | nil => exact ⟨values, rfl⟩
  | cons o rest ih =>
    obtain ⟨op, hop, happ⟩ := (hv.mem_iff o).1 (by simp [hsplit])
    obtain ⟨a, ha⟩ := Option.isSome_iff_exists.1 happ
    have hmem := List.mem_of_getElem? hop
    have hc := hg.coherent
    obtain ⟨x, s', y, hatt⟩ := hc.attached op hmem a ha
    -- Feeders stand before the operator in the schedule, so they are among those that are done.
    have hfed : ∀ f, x.producer = some f ∨ s'.producer = some f → f ∈ done := fun f hf =>
      hv.fed done rest o op hsplit hop f ((mem_feeders ha hatt).2 hf)
    have hinputs := hground op hmem
    simp only [Operator.inputs, ha, List.forall_mem_cons] at hinputs
    obtain ⟨xs, hxs, hx⟩ := hp.exists_operand hc hatt.data (hinputs.1 x hatt.data)
      fun f hf => hfed f (.inl hf)
    obtain ⟨ss, hss, hs⟩ := hp.exists_operand hc hatt.parameter (hinputs.2.1 s' hatt.parameter)
      fun f hf => hfed f (.inr hf)
    obtain ⟨ys, hys⟩ := hatt.exists_result hg.settled hmem ha (hwords op hmem) hxs hss hx hs
    have hnext := hp.step hc hg.produced ⟨hmem, ha, hatt, hys⟩
    obtain ⟨final, hfinal⟩ := ih hnext (by simpa [hc.operator_id o op hop] using hsplit)
    refine ⟨final, ?_⟩
    rw [runOperators, operator_eq_ok.2 hop, Execution.ofLowering, Computation.ok_bind, hys,
      Computation.ok_bind, Operator.output_resultSlot ha, Execution.ofLowering,
      Computation.ok_bind, hfinal]

omit [Zero α] [Add α] [Mul α] in
/-- The tensors that have an array once a schedule has run are the inputs, the weights and the
results of the applied operators. -/
theorem Progress.valued_iff (hp : g.Progress s.ordered final) (hg : g.Reachable) (hv : s.Valid g)
    (hx : g.tensors[i]? = some x) :
    (∃ data, final.lookup i = some data) ↔ x.role = .input ∨ x.role = .weight ∨
      ∃ op ∈ g.applied, op.output op.kind.resultSlot = .ok i := by
  have hmem := List.mem_of_getElem? hx
  have hvalued := hp.valued x hmem
  rw [hg.coherent.tensor_id i x hx] at hvalued
  have hproduces := hg.linked.produces x hmem
  rw [hg.coherent.tensor_id i x hx] at hproduces
  rw [hvalued]
  refine or_congr_right (or_congr_right ⟨?_, ?_⟩)
  · rintro ⟨o, -, ho⟩
    obtain ⟨op, a, hop, ha, rfl⟩ := (hproduces o).1 ho
    exact ⟨op, List.mem_filter.2 ⟨List.mem_of_getElem? hop, by simp [Operator.isApplied, ha]⟩,
      Operator.output_resultSlot ha⟩
  · rintro ⟨op, happ, houtput⟩
    obtain ⟨hop, happ⟩ := List.mem_filter.1 happ
    obtain ⟨a, ha⟩ := Option.isSome_iff_exists.1 happ
    cases (Operator.output_resultSlot ha).symm.trans houtput
    have hat := hg.coherent.operator_eq_some hop
    exact ⟨op.id, (hv.mem_iff op.id).2 ⟨op, hat, happ⟩, (hproduces op.id).2 ⟨op, a, hat, ha, rfl⟩⟩

/-- Only tensors of the graph get arrays. -/
theorem known_of_run (hg : g.Coherent) (h : g.runOperators values rest = .ok final)
    (hknown : ∀ entry ∈ values, ∃ x, g.tensors[entry.1]? = some x) :
    ∀ entry ∈ final, ∃ x, g.tensors[entry.1]? = some x := by
  induction rest generalizing values with
  | nil =>
    cases h
    exact hknown
  | cons o rest ih =>
    obtain ⟨op, a, x, s', y, data, -, -, hr, hrest⟩ := runOperators_cons hg h
    exact ih hrest (List.forall_mem_cons.2 ⟨⟨y, hr.attached.result⟩, hknown⟩)

end

/-! ## Host data -/

section
variable {α : Type} {g : Graph} {x : Tensor} {data : Array α}

/-- The array has one element for each position of the tensor: as many as the product of the numbers
that its extents evaluate to, none of which is negative. -/
def Spans (g : Graph) (x : Tensor) (data : Array α) : Prop :=
  ∃ numbers, List.Forall₂ g.symbols.Counts x.shape.extents numbers ∧
    data.size = View.span numbers

theorem fits_iff : g.Fits x data ↔ g.Spans x data := by
  constructor
  · rintro ⟨v, hv, hsize⟩
    exact ⟨v.extents, (Tensor.view_eq_ok.1 hv).2, hsize⟩
  · rintro ⟨numbers, hnumbers, hsize⟩
    exact ⟨⟨x.shape.order, numbers, hnumbers.length_eq.symm.trans x.shape.length_extents⟩,
      Tensor.view_eq_ok.2 ⟨rfl, hnumbers⟩, hsize⟩

end

end Graph

/-- Every input and every weight has data under its name, with as many elements as the product of
its extents, which all evaluate to numbers that are not negative. -/
def HostData.Supplies {α : Type} (host : HostData α) (g : Graph) : Prop :=
  ∀ x ∈ g.tensors, ∀ arrays, host.arrays? x.role = some arrays →
    ∃ data, arrays.lookup x.name = some data ∧ g.Spans x data

theorem Values.get_eq_ok {α : Type} {values : Values α} {i : TensorId} {data : Array α} :
    values.get i = .ok data ↔ values.lookup i = some data := by
  unfold Values.get
  cases values.lookup i <;> simp

namespace Graph

variable {α : Type} {g : Graph} {host : HostData α} {values final : Values α}

/-- The host data are taken when those of every tensor are. -/
theorem exists_hostValues_of_hostArray
    (h : ∀ x ∈ g.tensors, ∃ data?, g.hostArray host x = .ok data?) :
    ∃ values, g.hostValues host = .ok values := by
  have hentry : ∀ x ∈ g.tensors, ∃ entry, (do
      let data ← g.hostArray host x
      pure (data.map (x.id, ·)) : Lowering (Option (TensorId × Array α))) = .ok entry := by
    intro x hx
    obtain ⟨data?, hdata⟩ := h x hx
    exact ⟨data?.map (x.id, ·), by rw [hdata]; rfl⟩
  obtain ⟨arrays, harrays⟩ := Computation.exists_mapM hentry
  exact ⟨_, Computation.bind_eq_ok.2 ⟨arrays, harrays, rfl⟩⟩

/-- The host data are taken when they supply the graph. -/
theorem exists_hostValues : (∃ values, g.hostValues host = .ok values) ↔ host.Supplies g := by
  constructor
  · rintro ⟨values, hvalues⟩ x hx arrays harrays
    obtain ⟨supplied, hsupplied, -⟩ := hostValues_eq_ok hvalues
    obtain ⟨data, hdata, hfits, -⟩ := (hostArray_of_some harrays).1 (hsupplied x hx)
    exact ⟨data, hdata, fits_iff.1 hfits⟩
  · intro hsupplies
    refine exists_hostValues_of_hostArray fun x hx => ?_
    cases harrays : host.arrays? x.role with
    | none => exact ⟨none, hostArray_of_none harrays⟩
    | some arrays =>
      obtain ⟨data, hdata, hspans⟩ := hsupplies x hx arrays harrays
      exact ⟨some data, (hostArray_of_some harrays).2 ⟨data, hdata, fits_iff.2 hspans, rfl⟩⟩

/-! ## Executions -/

variable [Zero α] [Add α] [Mul α]

/-- Once the host data are taken, an execution succeeds. -/
theorem Reachable.exists_execute (hg : g.Reachable) (hground : g.Grounded)
    (hwords : ∀ op ∈ g.operators, ∀ p, op.kind = .deconvolution p → p.Signed)
    (hvalues : g.hostValues host = .ok values) : ∃ final, g.execute host = .ok final := by
  obtain ⟨s, hs, -, hv⟩ := hg.schedule_accepted
  have hp := progress_hostValues hg.coherent hvalues
  obtain ⟨final, hfinal⟩ := hp.exists_final hg hground hwords hv (List.nil_append _).symm
  exact ⟨final, by rw [execute, hvalues, hs]; exact hfinal⟩

/-- The arrays that an execution answers with. -/
theorem Reachable.get_of_execute (hg : g.Reachable) (h : g.execute host = .ok final) :
    (∀ i, (∃ data, final.get i = .ok data) ↔ ∃ x, g.tensors[i]? = some x ∧
      (x.role = .input ∨ x.role = .weight ∨
        ∃ op ∈ g.applied, op.output op.kind.resultSlot = .ok i)) ∧
    ∀ i x data, g.tensors[i]? = some x → final.get i = .ok data → g.Spans x data := by
  obtain ⟨s, hs, -, hv⟩ := hg.schedule_accepted
  obtain ⟨values, hvalues, h⟩ := Computation.bind_eq_ok.1 h
  obtain ⟨s', hs', h⟩ := Computation.bind_eq_ok.1 h
  rw [Execution.ofLowering_eq_ok] at hvalues hs'
  cases hs.symm.trans hs'
  have hc := hg.coherent
  have hp := (progress_hostValues hc hvalues).all hc hg.produced h
  simp only [Values.get_eq_ok]
  refine ⟨fun i => ⟨?_, ?_⟩, fun i x data hx hdata => ?_⟩
  · rintro ⟨data, hdata⟩
    have hentry : (i, data) ∈ final := by
      obtain ⟨before, after, hsplit, -⟩ := List.lookup_eq_some_iff.1 hdata
      simp [hsplit]
    have hknown : ∀ entry ∈ values, ∃ x, g.tensors[entry.1]? = some x := by
      intro entry hentry
      obtain ⟨x, hx, hid, -⟩ := mem_hostValues hvalues hentry
      exact ⟨x, hid ▸ hc.tensor_eq_some hx⟩
    obtain ⟨x, hx⟩ := known_of_run hc h hknown _ hentry
    exact ⟨x, hx, (hp.valued_iff hg hv hx).1 ⟨data, hdata⟩⟩
  · rintro ⟨x, hx, hsource⟩
    exact (hp.valued_iff hg hv hx).2 hsource
  · refine fits_iff.1 (hp.fits x (List.mem_of_getElem? hx) data ?_)
    rwa [hc.tensor_id i x hx]

/-- The reference execution is total on graphs that are well supplied. Take a graph in which every
operand is supplied or computed, and whose deconvolutions have parameters below `2^63`. Then it
executes just when every input and weight has data under its name, as many elements as its extents
span, which all have numbers. Whatever the host data are, no access is outside an array, no
coordinate is divided by zero, and neither is a stride. The arrays of the answer are those of the
inputs, the weights and the results of the applied operators, each as long as the extents of its
tensor span. -/
theorem Reachable.execute_total (hg : g.Reachable) (hground : g.Grounded)
    (hwords : ∀ op ∈ g.operators, ∀ p, op.kind = .deconvolution p → p.Signed) :
    ((∃ final, g.execute host = .ok final) ↔ host.Supplies g) ∧
    (∀ fault, g.execute host = .error fault → ∃ e, fault = .refused e) ∧
    (∀ op ∈ g.operators, ∀ p, op.kind = .deconvolution p →
      0 < p.stride.h.toInt64.toInt ∧ 0 < p.stride.w.toInt64.toInt) ∧
    ∀ final, g.execute host = .ok final →
      (∀ i, (∃ data, final.get i = .ok data) ↔ ∃ x, g.tensors[i]? = some x ∧
        (x.role = .input ∨ x.role = .weight ∨
          ∃ op ∈ g.applied, op.output op.kind.resultSlot = .ok i)) ∧
      ∀ i x data, g.tensors[i]? = some x → final.get i = .ok data → g.Spans x data := by
  refine ⟨⟨?_, fun hsupplies => ?_⟩, fun fault hfault => ?_,
    fun op hop p hkind => (hwords op hop p hkind).stride_pos, fun final => hg.get_of_execute⟩
  · rintro ⟨final, hfinal⟩
    obtain ⟨values, hvalues, -⟩ := Computation.bind_eq_ok.1 hfinal
    exact exists_hostValues.1 ⟨values, Execution.ofLowering_eq_ok.1 hvalues⟩
  · obtain ⟨values, hvalues⟩ := exists_hostValues.2 hsupplies
    exact hg.exists_execute hground hwords hvalues
  · cases hvalues : g.hostValues host with
    | error e =>
      rw [execute, hvalues] at hfault
      cases hfault
      exact ⟨e, rfl⟩
    | ok values =>
      obtain ⟨final, hfinal⟩ := hg.exists_execute hground hwords hvalues
      rw [hfinal] at hfault
      cases hfault

/-- A deconvolution with strides and a padding. -/
def stridedWindow : Deconvolution := ⟨⟨1, 3⟩, ⟨2, 2⟩, ⟨0, 1⟩, by decide, by decide⟩

/-- A batch of two rows of two elements, deconvolved by two kernels and then scaled by channel. -/
def stridedRows : Graph :=
  empty.replay [.addSymbol "N",
    .addTensor .input "x" .nhwc [.symbol 0, .value 1, .value 2, .value 1],
    .addTensor .weight "w" .nchw [.value 2, .value 1, .value 1, .value 3],
    .addTensor .weight "s" .c [.value 2], .addOperator none (.deconvolution stridedWindow),
    .addOperator none (.axiswiseScale .c), .apply 0 [0, 1], .apply 1 [3, 2], .bind 0 2]

/-- Data for the inputs and weights of `stridedRows`, with the given scales. -/
def stridedData (scales : List (String × Array Int)) : HostData Int where
  inputs := [("x", #[1, 2, 3, 4])]
  weights := ("w", #[1, 2, 3, 5, 7, 11]) :: scales

/-- With a scale the rows are computed, in twelve elements; without one nothing is. -/
theorem execute_total_stridedRows :
    stridedRows.Grounded ∧
      (∃ final data, stridedRows.execute (stridedData [("s", #[1, -1])]) = .ok final ∧
        final.get 4 = .ok data ∧ data.size = 12) ∧
      ¬ ∃ final, stridedRows.execute (stridedData []) = .ok final := by
  have hg : stridedRows.Reachable := ⟨_, rfl⟩
  have hground : stridedRows.Grounded := by decide +kernel
  have hwords : ∀ op ∈ stridedRows.operators, ∀ p, op.kind = .deconvolution p → p.Signed := by
    intro op hop p hkind
    have hmem : op.kind ∈ [.deconvolution stridedWindow, .axiswiseScale .c] :=
      List.mem_map_of_mem (f := (·.kind)) hop
    rw [hkind] at hmem
    simp only [List.mem_cons, OperatorKind.deconvolution.injEq, reduceCtorEq, List.not_mem_nil,
      or_false] at hmem
    subst hmem
    constructor <;> simp [stridedWindow]
  refine ⟨hground, ?_, fun h => ?_⟩
  · obtain ⟨final, hfinal⟩ : ∃ final,
        stridedRows.execute (stridedData [("s", #[1, -1])]) = .ok final :=
      (Reachable.execute_total hg hground hwords).1.2 (exists_hostValues.1 ⟨_, rfl⟩)
    obtain ⟨hdefined, hspans⟩ := (Reachable.execute_total hg hground hwords).2.2.2 final hfinal
    obtain ⟨x, hx⟩ : ∃ x, stridedRows.tensors[4]? = some x := ⟨_, rfl⟩
    obtain ⟨data, hdata⟩ := (hdefined 4).2
      ⟨x, hx, .inr (.inr ⟨_, List.mem_of_getElem? (i := 1) rfl, rfl⟩)⟩
    obtain ⟨v, hv, hsize⟩ := fits_iff.2 (hspans 4 x data hx hdata)
    have hview : (stridedRows.tensors[4]?.map fun x => (x.view stridedRows.symbols).map View.size) =
        some (.ok 12) := by decide +kernel
    rw [hx, Option.map_some, hv] at hview
    exact ⟨final, data, hfinal, hdata, hsize.trans (Except.ok.inj (Option.some.inj hview))⟩
  · obtain ⟨data, hdata, -⟩ := (Reachable.execute_total hg hground hwords).1.1 h _
      (List.mem_of_getElem? (i := 2) rfl) _ rfl
    cases hdata

end Graph

end TensorLowering
