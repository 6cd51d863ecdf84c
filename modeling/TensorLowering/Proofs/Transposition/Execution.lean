import TensorLowering.Proofs.Execution.Totality
import TensorLowering.Proofs.Transposition.View

/-!
# Executions in other axis orders

Transposed graphs run their operators in one sequence (`Graph.Transposes.schedule_eq`), and every
operator computes the same elements from the same elements (`Graph.Transposes.exists_result`). So
whatever orders the declarations of a script choose, and on host data that are laid out accordingly,
the same steps succeed, the execution succeeds or not, and every tensor has the same element at all
coordinates (`Graph.execute_transposes`). Elements are of any type with a zero, a sum and a product,
without laws: the sums are the same expressions, so machine floats are rounded in the same way.
-/

namespace TensorLowering

namespace Graph

variable {g h : Graph} {x x' y y' s s' : Tensor} {op : Operator} {a : Application}

/-! ## Schedules -/

/-- A handle belongs to transposed tensors, or to none in either graph. -/
theorem Transposes.tensor_cases (hgh : g.Transposes h) (i : TensorId) :
    (∃ x y, g.tensor i = .ok x ∧ h.tensor i = .ok y ∧ x.Transposes y) ∨
      h.tensor i = g.tensor i := by
  cases hx : g.tensors[i]? with
  | none =>
    have hy : h.tensors[i]? = none := by
      rw [List.getElem?_eq_none_iff] at hx ⊢
      rwa [← hgh.tensors.length_eq]
    exact .inr (by rw [tensor, tensor, hx, hy])
  | some x =>
    obtain ⟨y, hy, hxy⟩ := Computation.exists_result hgh.tensors hx
    exact .inl ⟨x, y, tensor_eq_ok.2 hx, tensor_eq_ok.2 hy, hxy⟩

theorem Transposes.producers_eq (hgh : g.Transposes h) (op : Operator) :
    h.producers op = g.producers op := by
  have hread : ∀ (slot : String) (input : TensorId),
      (h.tensor input >>= fun x => pure (x.producer.map (slot, ·))) =
        (g.tensor input >>= fun x => pure (x.producer.map (slot, ·)) : Lowering _) := by
    intro slot input
    rcases hgh.tensor_cases input with ⟨x, y, hx, hy, hxy⟩ | heq
    · rw [hx, hy, Computation.ok_bind, Computation.ok_bind, hxy.producer]
    · rw [heq]
  simp only [producers, hread]

/-- The schedule does not depend on the orders of axes. -/
theorem Transposes.schedule_eq (hgh : g.Transposes h) : h.schedule = g.schedule := by
  have hprecedence : h.precedence = g.precedence := by
    simp only [precedence, applied, operator, hgh.operators, hgh.producers_eq]
  rw [schedule, schedule, hprecedence]

/-! ## Arrays of transposed tensors -/

section
variable {α : Type} {xs xs' ss ss' ys : Array α} {values others : Values α}

/-- The arrays of two tensors, one in each graph, are as long as these, and have the same element at
all coordinates. -/
def Corresponds (g h : Graph) (x y : Tensor) (data others : Array α) : Prop :=
  ∃ v w, x.view g.symbols = .ok v ∧ y.view h.symbols = .ok w ∧ data.size = v.size ∧
    others.size = w.size ∧ v.SameElements w data others

/-- The tensors that have arrays are the same in both graphs, and their arrays correspond. -/
def AllCorrespond (g h : Graph) (values others : Values α) : Prop :=
  ∀ i x y, g.tensors[i]? = some x → h.tensors[i]? = some y →
    Option.Rel (g.Corresponds h x y) (values.lookup i) (others.lookup i)

theorem AllCorrespond.exists_lookup {i : TensorId} (hvalues : g.AllCorrespond h values others)
    (hx : g.tensors[i]? = some x) (hy : h.tensors[i]? = some y)
    (hxs : values.lookup i = some xs) :
    ∃ xs', others.lookup i = some xs' ∧ g.Corresponds h x y xs xs' := by
  have hrel := hvalues i x y hx hy
  rw [hxs] at hrel
  cases hlookup : others.lookup i with
  | none => rw [hlookup] at hrel; cases hrel
  | some xs' =>
    rw [hlookup] at hrel
    cases hrel with
    | some hcorresponds => exact ⟨xs', rfl, hcorresponds⟩

theorem Transposes.exists_view {v : View} (hgh : g.Transposes h) (hxy : x.Transposes y)
    (hv : x.view g.symbols = .ok v) : ∃ w, y.view h.symbols = .ok w ∧ v.Transposes w := by
  rw [hgh.symbols]
  exact Tensor.exists_view_of_transposes hxy.shape hv

theorem Transposes.view {v w : View} (hgh : g.Transposes h) (hxy : x.Transposes y)
    (hv : x.view g.symbols = .ok v) (hw : y.view h.symbols = .ok w) : v.Transposes w := by
  obtain ⟨w', hw', hvw⟩ := hgh.exists_view hxy hv
  cases hw.symm.trans hw'
  exact hvw

theorem Corresponds.symm (hgh : g.Transposes h) (hxy : x.Transposes y)
    (hc : g.Corresponds h x y xs xs') : h.Corresponds g y x xs' xs := by
  obtain ⟨v, w, hv, hw, hxs, hxs', hsame⟩ := hc
  exact ⟨w, v, hw, hv, hxs', hxs, hsame.symm (hgh.view hxy hv hw)⟩

/-! ## Operators -/

variable [Zero α] [Add α] [Mul α]

section
variable (hgh : g.Transposes h) (hset : g.Settled) (hop : op ∈ g.operators)
  (ha : op.application = some a) (hatt : g.Attached op a x s y) (hatt' : h.Attached op a x' s' y')
  (hx : x.Transposes x') (hs : s.Transposes s') (hxs : values.lookup a.data = some xs)
  (hss : values.lookup a.parameter = some ss) (hxs' : others.lookup a.data = some xs')
  (hss' : others.lookup a.parameter = some ss') (hdata : g.Corresponds h x x' xs xs')
  (hparameter : g.Corresponds h s s' ss ss') (hrun : g.runOperator op values = .ok ys)
include hgh hset hop ha hatt hatt' hx hs hxs hss hxs' hss' hdata hparameter hrun

/-- A scaling computes the same elements. -/
theorem Transposes.exists_scaling {axis : Axis} (hkind : op.kind = .axiswiseScale axis) :
    ∃ ys', h.runOperator op others = .ok ys' ∧ g.Corresponds h y y' ys ys' := by
  obtain ⟨v, w, hv, hw, hsize, hsize', hsame⟩ := hdata
  obtain ⟨sv, sw, hsv, hsw, hssize, hssize', hssame⟩ := hparameter
  obtain ⟨haxis, hrank, hlength⟩ := hatt.scale_eq hset hop ha hkind hv hsv
  obtain rfl : ss' = ss := hssame.eq_of_rank_one (hgh.view hs hsv hsw) hrank hssize hssize'
  obtain ⟨v', hv', hys⟩ := (hatt.run_scaling_eq_ok ha hkind hxs hss).1 hrun
  cases hv.symm.trans hv'
  obtain ⟨ys', hys', hresult⟩ := AxiswiseScale.exists_elements_of_transposes (hgh.view hx hv hw)
    haxis hsize' (hssize.trans hlength) hsame hys
  exact ⟨ys', (hatt'.run_scaling_eq_ok ha hkind hxs' hss').2 ⟨w, hw, hys'⟩, v, w,
    hatt.view_of_scaling hkind hv, hatt'.view_of_scaling hkind hw,
    (size_of_scaling hys).trans hsize, (size_of_scaling hys').trans hsize', hresult⟩

/-- A deconvolution computes the same elements. -/
theorem Transposes.exists_deconvolution {p : Deconvolution} (hkind : op.kind = .deconvolution p)
    (hy : y.Transposes y') :
    ∃ ys', h.runOperator op others = .ok ys' ∧ g.Corresponds h y y' ys ys' := by
  obtain ⟨xv, xw, hxv, hxw, -, -, hsame⟩ := hdata
  obtain ⟨sv, sw, hsv, hsw, -, -, hssame⟩ := hparameter
  obtain ⟨yv, hyv, hmatches⟩ := hatt.exists_matches hset hop ha hkind hxv hsv
  obtain ⟨yw, hyw, hresult⟩ := hgh.exists_view hy hyv
  obtain ⟨xv', sv', yv', hxv', hsv', hyv', hys⟩ :=
    (hatt.run_deconvolution_eq_ok ha hkind hxs hss).1 hrun
  cases hxv.symm.trans hxv'
  cases hsv.symm.trans hsv'
  cases hyv.symm.trans hyv'
  obtain ⟨ys', hys', hysame⟩ := Deconvolution.exists_elements_of_transposes hmatches
    (hgh.view hx hxv hxw) (hgh.view hs hsv hsw) hresult hsame hssame hys
  exact ⟨ys', (hatt'.run_deconvolution_eq_ok ha hkind hxs' hss').2
    ⟨xw, sw, yw, hxw, hsw, hyw, hys'⟩, yv, yw, hyv, hyw,
    (Deconvolution.elements_eq_ok.1 hys).1, (Deconvolution.elements_eq_ok.1 hys').1, hysame⟩

end

/-- An operator that runs on some arrays runs on arrays that correspond, with a result that
corresponds. -/
theorem Transposes.exists_result (hgh : g.Transposes h) (hset : g.Settled)
    (hvalues : g.AllCorrespond h values others) (hop : op ∈ g.operators)
    (ha : op.application = some a) (hatt : g.Attached op a x s y)
    (hatt' : h.Attached op a x' s' y') (hrun : g.runOperator op values = .ok ys) :
    ∃ ys', h.runOperator op others = .ok ys' ∧ g.Corresponds h y y' ys ys' := by
  have htransposes : ∀ {i : TensorId} {z z' : Tensor}, g.tensors[i]? = some z →
      h.tensors[i]? = some z' → z.Transposes z' := by
    intro i z z' hz hz'
    obtain ⟨_, hz'', hzz'⟩ := Computation.exists_result hgh.tensors hz
    cases hz'.symm.trans hz''
    exact hzz'
  have hx := htransposes hatt.data hatt'.data
  have hs := htransposes hatt.parameter hatt'.parameter
  have hy := htransposes hatt.result hatt'.result
  obtain ⟨xs, ss, hxs, hss⟩ := operands_of_runOperator ha hrun
  obtain ⟨xs', hxs', hdata⟩ := hvalues.exists_lookup hatt.data hatt'.data hxs
  obtain ⟨ss', hss', hparameter⟩ := hvalues.exists_lookup hatt.parameter hatt'.parameter hss
  cases hkind : op.kind with
  | axiswiseScale axis =>
    exact hgh.exists_scaling hset hop ha hatt hatt' hx hs hxs hss hxs' hss' hdata hparameter hrun
      hkind
  | deconvolution p =>
    exact hgh.exists_deconvolution hset hop ha hatt hatt' hx hs hxs hss hxs' hss' hdata hparameter
      hrun hkind hy

/-! ## Runs -/

/-- Operators that run on some arrays run on arrays that correspond. -/
theorem Transposes.exists_final {rest : List OperatorId} {final : Values α} (hgh : g.Transposes h)
    (hset : g.Settled) (hg : g.Coherent) (hh : h.Coherent)
    (hvalues : g.AllCorrespond h values others) (hrun : g.runOperators values rest = .ok final) :
    ∃ final', h.runOperators others rest = .ok final' ∧ g.AllCorrespond h final final' := by
  induction rest generalizing values others with
  | nil =>
    cases hrun
    exact ⟨others, rfl, hvalues⟩
  | cons id rest ih =>
    obtain ⟨op, a, x, s, y, ys, hop, rfl, hr, hrest⟩ := runOperators_cons hg hrun
    have hop' : h.operator op.id = .ok op := by rw [operator, hgh.operators]; exact hop
    obtain ⟨x', s', y', hatt'⟩ := hh.attached op (hgh.operators ▸ hr.mem) a hr.applied
    obtain ⟨ys', hys', hresult⟩ :=
      hgh.exists_result hset hvalues hr.mem hr.applied hr.attached hatt' hr.run
    have hnext : g.AllCorrespond h ((a.result, ys) :: values) ((a.result, ys') :: others) := by
      intro i z z' hz hz'
      rw [List.lookup_cons, List.lookup_cons]
      by_cases hi : i = a.result
      · subst hi
        cases hz.symm.trans hr.attached.result
        cases hz'.symm.trans hatt'.result
        rw [beq_self_eq_true]
        exact .some hresult
      · rw [beq_eq_false_iff_ne.2 hi]
        exact hvalues i z z' hz hz'
    obtain ⟨final', hfinal', hall⟩ := ih hnext hrest
    refine ⟨final', ?_, hall⟩
    rw [runOperators, hop', Execution.ofLowering, Computation.ok_bind, hys', Computation.ok_bind,
      Operator.output_resultSlot hr.applied, Execution.ofLowering, Computation.ok_bind, hfinal']

end

end Graph

/-! ## Host data -/

/-- What the host has for a tensor, if it supplies tensors of that role. -/
def HostData.array? {α : Type} (host : HostData α) (x : Tensor) : Option (Array α) :=
  (host.arrays? x.role).bind (·.lookup x.name)

/-- What one host has for a tensor the other has for its counterpart, as long, and where it is as
long as the tensor, with the same element at all coordinates. -/
def HostData.PermutesAt {α : Type} (host others : HostData α) (g h : Graph) (x y : Tensor) : Prop :=
  Option.Rel (fun data data' => data'.size = data.size ∧
    (g.Fits x data → g.Corresponds h x y data data')) (host.array? x) (others.array? y)

/-- The hosts have the same data for the tensors of two graphs, each laid out in the orders of its
own graph. -/
def HostData.Permutes {α : Type} (host others : HostData α) (g h : Graph) : Prop :=
  List.Forall₂ (host.PermutesAt others g h) g.tensors h.tensors

namespace Graph

variable {α : Type} {g h : Graph} {host others : HostData α} {values final : Values α}
  {x y : Tensor}

theorem Transposes.permutesAt_symm (hgh : g.Transposes h) (hxy : x.Transposes y)
    (hhost : host.PermutesAt others g h x y) : others.PermutesAt host h g y x := by
  unfold HostData.PermutesAt at hhost ⊢
  generalize host.array? x = data? at hhost ⊢
  generalize others.array? y = data?' at hhost ⊢
  cases hhost with
  | none => exact .none
  | some hdata =>
    obtain ⟨hsize, hcorresponds⟩ := hdata
    refine .some ⟨hsize.symm, ?_⟩
    rintro ⟨w, hw, hwsize⟩
    obtain ⟨v, hv, hwv⟩ := hgh.symm.exists_view hxy.symm hw
    have hfits : g.Fits x _ := ⟨v, hv, by rw [← hsize, hwsize, hwv.size]⟩
    exact (hcorresponds hfits).symm hgh hxy

theorem Transposes.permutes_symm (hgh : g.Transposes h) (hhost : host.Permutes others g h) :
    others.Permutes host h g :=
  ((Computation.forall₂_and hgh.tensors hhost).imp fun _ _ ⟨hxy, hdata⟩ =>
    hgh.permutesAt_symm hxy hdata).flip

/-- What is supplied for a tensor has a counterpart for its counterpart. -/
theorem exists_hostArray {data? : Option (Array α)} (hrole : y.role = x.role)
    (hhost : host.PermutesAt others g h x y) (hdata : g.hostArray host x = .ok data?) :
    ∃ data?', h.hostArray others y = .ok data?' ∧
      Option.Rel (g.Corresponds h x y) data? data?' := by
  cases harrays : host.arrays? x.role with
  | none =>
    have harrays' : others.arrays? y.role = none := by
      rw [hrole]
      cases hx : x.role <;> simp [hx, HostData.arrays?] at harrays ⊢
    rw [hostArray_of_none harrays] at hdata
    cases hdata
    exact ⟨none, hostArray_of_none harrays', .none⟩
  | some arrays =>
    obtain ⟨data, hlookup, hfits, rfl⟩ := (hostArray_of_some harrays).1 hdata
    have harray : host.array? x = some data := by
      rw [HostData.array?, harrays, Option.bind_some, hlookup]
    rw [HostData.PermutesAt, harray] at hhost
    cases harray' : others.array? y with
    | none => rw [harray'] at hhost; cases hhost
    | some data' =>
      rw [harray'] at hhost
      cases hhost with
      | some hsame =>
        have hcorresponds := hsame.2 hfits
        obtain ⟨arrays', harrays', hlookup'⟩ := Option.bind_eq_some_iff.1 harray'
        obtain ⟨v, w, -, hw, -, hsize, -⟩ := hcorresponds
        exact ⟨some data', (hostArray_of_some harrays').2 ⟨data', hlookup', ⟨w, hw, hsize⟩, rfl⟩,
          .some (hsame.2 hfits)⟩

/-- When the host data of one graph are taken, those of the other are. -/
theorem Transposes.exists_hostValues (hgh : g.Transposes h) (hg : g.Coherent) (hh : h.Coherent)
    (hhost : host.Permutes others g h) (hvalues : g.hostValues host = .ok values) :
    ∃ values', h.hostValues others = .ok values' ∧ g.AllCorrespond h values values' := by
  have hall := Computation.forall₂_and hgh.tensors hhost
  obtain ⟨values', hvalues'⟩ : ∃ values', h.hostValues others = .ok values' := by
    refine exists_hostValues_of_hostArray fun y hy => ?_
    obtain ⟨x, hx, hxy, hdata⟩ := Computation.exists_item_of_mem hall hy
    obtain ⟨data?, harray, -⟩ := exists_hostArray hxy.role hdata (lookup_hostValues hg hvalues hx)
    exact ⟨data?, harray⟩
  refine ⟨values', hvalues', fun i x y hx hy => ?_⟩
  obtain ⟨y', hy', hxy, hdata⟩ := Computation.exists_result hall hx
  cases hy.symm.trans hy'
  obtain ⟨data?, harray, hcorrespond⟩ := exists_hostArray hxy.role hdata
    (lookup_hostValues hg hvalues (List.mem_of_getElem? hx))
  have hlookup := lookup_hostValues hh hvalues' (List.mem_of_getElem? hy)
  cases hlookup.symm.trans harray
  rwa [hg.tensor_id i x hx, hh.tensor_id i y hy] at hcorrespond

/-! ## Executions -/

variable [Zero α] [Add α] [Mul α]

/-- An execution that succeeds does so on every transposed graph, with arrays that correspond. -/
theorem Transposes.exists_execute (hgh : g.Transposes h) (hg : g.Reachable) (hh : h.Reachable)
    (hhost : host.Permutes others g h) (hrun : g.execute host = .ok final) :
    ∃ final', h.execute others = .ok final' ∧ g.AllCorrespond h final final' := by
  obtain ⟨values, hvalues, hrun⟩ := Computation.bind_eq_ok.1 hrun
  obtain ⟨s, hs, hrun⟩ := Computation.bind_eq_ok.1 hrun
  rw [Execution.ofLowering_eq_ok] at hvalues hs
  obtain ⟨values', hvalues', hstart⟩ :=
    hgh.exists_hostValues hg.coherent hh.coherent hhost hvalues
  obtain ⟨final', hfinal', hall⟩ :=
    hgh.exists_final hg.settled hg.coherent hh.coherent hstart hrun
  rw [← hgh.schedule_eq] at hs
  exact ⟨final', by rw [execute, hvalues', hs]; exact hfinal', hall⟩

/-- Every array of one execution has a counterpart in the other. -/
theorem Transposes.exists_get {final' : Values α} {i : TensorId} {data : Array α}
    (hgh : g.Transposes h) (hg : g.Reachable) (hh : h.Reachable)
    (hhost : host.Permutes others g h) (hfinal : g.execute host = .ok final)
    (hfinal' : h.execute others = .ok final') (hdata : final.get i = .ok data) :
    ∃ x y data', g.tensors[i]? = some x ∧ h.tensors[i]? = some y ∧ final'.get i = .ok data' ∧
      g.Corresponds h x y data data' := by
  obtain ⟨_, hfinal'', hall⟩ := hgh.exists_execute hg hh hhost hfinal
  cases hfinal'.symm.trans hfinal''
  obtain ⟨x, hx, -⟩ := ((hg.get_of_execute hfinal).1 i).1 ⟨data, hdata⟩
  obtain ⟨y, hy, -⟩ := Computation.exists_result hgh.tensors hx
  obtain ⟨data', hdata', hcorresponds⟩ := hall.exists_lookup hx hy (Values.get_eq_ok.1 hdata)
  exact ⟨x, y, data', hx, hy, Values.get_eq_ok.2 hdata', hcorresponds⟩

/-- Results do not depend on the orders of axes. Take two scripts that differ only in that declared
tensors have other orders of the same axes, with their extents permuted, and host data that are
permuted accordingly. Then the same steps succeed and the graphs differ in nothing but these orders;
one is executed just when the other is; and then the same tensors have arrays, with the same element
at all coordinates. Nothing is asked of the arithmetic of elements, so rounding is the same too. -/
theorem execute_transposes {script script' : List Edit}
    (hscript : List.Forall₂ Edit.Transposes script script')
    (hhost : host.Permutes others (empty.replay script) (empty.replay script')) :
    empty.outcomes script' = empty.outcomes script ∧
    (empty.replay script).Transposes (empty.replay script') ∧
    ((∃ final, (empty.replay script).execute host = .ok final) ↔
      ∃ final', (empty.replay script').execute others = .ok final') ∧
    ∀ final final', (empty.replay script).execute host = .ok final →
      (empty.replay script').execute others = .ok final' →
      (∀ i, (∃ data, final.get i = .ok data) ↔ ∃ data', final'.get i = .ok data') ∧
      ∀ i data data', final.get i = .ok data → final'.get i = .ok data' →
        ∃ x y, (empty.replay script).tensors[i]? = some x ∧
          (empty.replay script').tensors[i]? = some y ∧
          (empty.replay script).Corresponds (empty.replay script') x y data data' := by
  obtain ⟨houtcomes, hgh⟩ := (Transposes.refl .empty).replay hscript
  have hg : (empty.replay script).Reachable := ⟨script, rfl⟩
  have hh : (empty.replay script').Reachable := ⟨script', rfl⟩
  have hhost' := hgh.permutes_symm hhost
  refine ⟨houtcomes, hgh, ⟨?_, ?_⟩, fun final final' hfinal hfinal' =>
    ⟨fun i => ⟨?_, ?_⟩, fun i data data' hdata hdata' => ?_⟩⟩
  · rintro ⟨final, hfinal⟩
    exact (hgh.exists_execute hg hh hhost hfinal).imp fun _ => And.left
  · rintro ⟨final', hfinal'⟩
    exact (hgh.symm.exists_execute hh hg hhost' hfinal').imp fun _ => And.left
  · rintro ⟨data, hdata⟩
    obtain ⟨-, -, data', -, -, hdata', -⟩ := hgh.exists_get hg hh hhost hfinal hfinal' hdata
    exact ⟨data', hdata'⟩
  · rintro ⟨data', hdata'⟩
    obtain ⟨-, -, data, -, -, hdata, -⟩ := hgh.symm.exists_get hh hg hhost' hfinal' hfinal hdata'
    exact ⟨data, hdata⟩
  · obtain ⟨x, y, data'', hx, hy, hdata'', hcorresponds⟩ :=
      hgh.exists_get hg hh hhost hfinal hfinal' hdata
    cases hdata'.symm.trans hdata''
    exact ⟨x, y, hx, hy, hcorresponds⟩

/-- A deconvolution of rows and a scaling by channel, on data and weights of the given shapes. The
last step contradicts the one before. -/
def stridedScript (data weights : Shape) : List Edit :=
  [.addSymbol "N", .addTensor .input "x" data.order data.extents,
    .addTensor .weight "w" weights.order weights.extents, .addTensor .weight "s" .c [.value 2],
    .addOperator none (.deconvolution stridedWindow), .addOperator none (.axiswiseScale .c),
    .apply 0 [0, 1], .apply 1 [3, 2], .bind 0 1, .bind 0 2]

/-- Rows with the channel innermost, windows with the columns innermost. -/
def stridedByPixel : List Edit :=
  stridedScript ⟨.nhwc, [.symbol 0, .value 1, .value 2, .value 2], rfl⟩
    ⟨.nchw, [.value 2, .value 2, .value 1, .value 3], rfl⟩

/-- Rows with the columns innermost, windows with the channel innermost. -/
def stridedByChannel : List Edit :=
  stridedScript ⟨.nchw, [.symbol 0, .value 2, .value 1, .value 2], rfl⟩
    ⟨.hwnc, [.value 1, .value 3, .value 2, .value 2], rfl⟩

/-- One row for `stridedByPixel`. -/
def dataByPixel : HostData Int where
  inputs := [("x", #[1, 2, 3, 4])]
  weights := [("w", #[1, 2, 3, 5, 7, 11, 13, 17, 19, 23, 29, 31]), ("s", #[1, -1])]

/-- The same row for `stridedByChannel`. -/
def dataByChannel : HostData Int where
  inputs := [("x", #[1, 3, 2, 4])]
  weights := [("w", #[1, 5, 13, 23, 2, 7, 17, 29, 3, 11, 19, 31]), ("s", #[1, -1])]

/-- A row in two layouts: both scripts fail at the last step only, and the scaled results hold the
same elements. -/
theorem execute_transposes_strided :
    empty.outcomes stridedByChannel =
        [true, true, true, true, true, true, true, true, true, false] ∧
      ∃ final final' data', (empty.replay stridedByPixel).execute dataByPixel = .ok final ∧
        (empty.replay stridedByChannel).execute dataByChannel = .ok final' ∧
        final.get 4 = .ok #[16, -75, 48, -212, 34, -167] ∧ final'.get 4 = .ok data' ∧
        ∃ x y, (empty.replay stridedByPixel).tensors[4]? = some x ∧
          (empty.replay stridedByChannel).tensors[4]? = some y ∧
          (empty.replay stridedByPixel).Corresponds (empty.replay stridedByChannel) x y
            #[16, -75, 48, -212, 34, -167] data' := by
  have hscript : List.Forall₂ Edit.Transposes stridedByPixel stridedByChannel :=
    .cons (.same _) (.cons (.declare .input "x" rfl) (.cons (.declare .weight "w" rfl)
      (List.forall₂_same.2 fun e _ => .same e)))
  have hhost : dataByPixel.Permutes dataByChannel (empty.replay stridedByPixel)
      (empty.replay stridedByChannel) := by
    refine .cons (.some ⟨rfl, fun _ => ?_⟩) (.cons (.some ⟨rfl, fun _ => ?_⟩)
      (.cons (.some ⟨rfl, fun _ => ?_⟩) (.cons .none (.cons .none .nil))))
    · exact ⟨⟨.nhwc, [1, 1, 2, 2], rfl⟩, ⟨.nchw, [1, 2, 1, 2], rfl⟩, rfl, rfl, rfl, rfl,
        .of_permuted ⟨by decide, by decide⟩ rfl (by decide)⟩
    · exact ⟨⟨.nchw, [2, 2, 1, 3], rfl⟩, ⟨.hwnc, [1, 3, 2, 2], rfl⟩, rfl, rfl, rfl, rfl,
        .of_permuted ⟨by decide, by decide⟩ rfl (by decide)⟩
    · exact ⟨⟨.c, [2], rfl⟩, ⟨.c, [2], rfl⟩, rfl, rfl, rfl, rfl,
        .of_permuted ⟨by decide, by decide⟩ rfl (by decide)⟩
  obtain ⟨houtcomes, -, hiff, hresults⟩ := execute_transposes hscript hhost
  obtain ⟨final, hfinal, hdata⟩ : ∃ final,
      (empty.replay stridedByPixel).execute dataByPixel = .ok final ∧
        final.get 4 = .ok #[16, -75, 48, -212, 34, -167] := ⟨_, rfl, rfl⟩
  obtain ⟨final', hfinal'⟩ := hiff.1 ⟨final, hfinal⟩
  obtain ⟨hdefined, hsame⟩ := hresults final final' hfinal hfinal'
  obtain ⟨data', hdata'⟩ := (hdefined 4).1 ⟨_, hdata⟩
  refine ⟨houtcomes.trans ?_, final, final', data', hfinal, hfinal', hdata, hdata',
    hsame 4 _ _ hdata hdata'⟩
  decide +kernel

end Graph

end TensorLowering
