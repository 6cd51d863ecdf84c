import Mathlib.Data.UInt
import TensorLowering.Proofs.Execution.Run
import TensorLowering.Proofs.Layout.Binding
import TensorLowering.Proofs.Liveness
import TensorLowering.Proofs.Memory.Machine
import TensorLowering.Proofs.Program

/-!
# Shared memory computes what the reference execution computes

The reference execution keeps every array for itself; the machine keeps arrays in regions that
tensors share. `Mirrors` relates the two before a step: the region of every tensor that has an array
holds that array, as long as the tensor is live at the step or crosses the border of the graph. An
operator finds its operands this way, because a tensor is live at every step that reads it; and its
result overwrites nothing that is still needed, because the places of tensors that are live together
are apart (`Mirrors.step`). By induction over the schedule the machine reads and computes what the
reference execution does (`Mirrors.run`, `Graph.Reachable.memory_refines_execution`).
-/

namespace TensorLowering

section
variable {α : Type} {E : Encoding α} {p : LayoutParts} {plan : LivenessPlan}
  {alignment : UInt64} {l : Layout} {g h : Graph} {x y : Tensor} {data : Array α}

/-! ## Reading and writing regions -/

namespace Deployment

/-- A tensor is found under its handle. -/
theorem tensor_eq (hd : Deployment p plan alignment l g h) (hx : x ∈ h.tensors) :
    h.tensor x.id = .ok x := by
  rw [Graph.tensor_eq_ok, hd.narrows.tensors]
  exact hd.coherent.tensor_eq_some (hd.narrows.tensors ▸ hx)

theorem readTensor_eq (hd : Deployment p plan alignment l g h) (hx : x ∈ h.tensors) {q : Place}
    (hq : h.place l x = .ok q) (m : Memory) :
    h.readTensor E l m x.id = .ok (m.read E q.space q.start q.count) := by
  rw [Graph.readTensor, hd.tensor_eq hx, Computation.ok_bind, hq]
  rfl

theorem writeTensor_eq (hd : Deployment p plan alignment l g h) (hx : x ∈ h.tensors) {q : Place}
    (hq : h.place l x = .ok q) (m : Memory) (data : Array α) :
    h.writeTensor E l m x.id data = .ok (m.write E q.space q.start data) := by
  rw [Graph.writeTensor, hd.tensor_eq hx, Computation.ok_bind, hq]
  rfl

/-- Writing an array that fits a tensor makes its region hold the array, and does not affect the
region of a tensor unless the two are intermediate and never live together. -/
theorem exists_write (hd : Deployment p plan alignment l g h) (hx : x ∈ h.tensors)
    (hfits : h.Fits x data) (m : Memory) :
    ∃ after, h.writeTensor E l m x.id data = .ok after ∧
      h.readTensor E l after x.id = .ok data ∧
      ∀ y ∈ h.tensors, y ≠ x →
        (y.role = .intermediate → x.role = .intermediate → ¬ plan.NeverTogether y.id x.id) →
        h.readTensor E l after y.id = h.readTensor E l m y.id := by
  obtain ⟨v, hv, hsize⟩ := hfits
  obtain ⟨q, hq, -⟩ := hd.exists_place hx
  have hcount : q.count = data.size := by
    obtain ⟨a, v', offset, -, hv', -, rfl⟩ := Graph.place_eq_ok.1 hq
    cases hv.symm.trans hv'
    exact hsize.symm
  refine ⟨_, hd.writeTensor_eq hx hq m data, ?_, fun y hy hne hlive => ?_⟩
  · rw [hd.readTensor_eq hx hq, hcount, Memory.read_write_self]
  · obtain ⟨q', hq', -⟩ := hd.exists_place hy
    rw [hd.readTensor_eq hy hq', hd.readTensor_eq hy hq']
    rcases hd.apart hy hx hne hq' hq with hapart | ⟨hrole, hrole', hnever⟩
    · rw [hcount] at hapart
      rw [Memory.read_write_apart hapart]
    · exact absurd hnever (hlive hrole hrole')

/-- Arrays that fit different tensors can be loaded, if no tensor is intermediate: each region holds
its array in the end, and the other regions of such tensors are not affected. -/
theorem exists_load (hd : Deployment p plan alignment l g h) {values : Values α}
    (hnodup : (values.map Prod.fst).Nodup)
    (hvalues : ∀ entry ∈ values, ∃ x ∈ h.tensors, x.id = entry.1 ∧ x.role ≠ .intermediate ∧
      h.Fits x entry.2) (m : Memory) :
    ∃ after, h.load E l m values = .ok after ∧
      (∀ entry ∈ values, h.readTensor E l after entry.1 = .ok entry.2) ∧
      ∀ y ∈ h.tensors, y.role ≠ .intermediate → y.id ∉ values.map Prod.fst →
        h.readTensor E l after y.id = h.readTensor E l m y.id := by
  induction values generalizing m with
  | nil => exact ⟨m, rfl, nofun, fun _ _ _ _ => rfl⟩
  | cons entry rest ih =>
    obtain ⟨⟨x, hx, hid, hrole, hfits⟩, hrest⟩ := List.forall_mem_cons.1 hvalues
    obtain ⟨hfresh, hnodup⟩ := List.nodup_cons.1 hnodup
    obtain ⟨middle, hwrite, hself, hothers⟩ := hd.exists_write (E := E) hx hfits m
    obtain ⟨after, hload, hreads, hkept⟩ := ih hnodup hrest middle
    refine ⟨after, ?_, List.forall_mem_cons.2 ⟨?_, hreads⟩, fun y hy hyrole hnot => ?_⟩
    · rw [Graph.load, List.foldlM_cons, ← hid, hwrite]
      exact hload
    · rw [← hid, hkept x hx hrole (hid ▸ hfresh), hself]
    · rw [List.map_cons, List.mem_cons, not_or] at hnot
      obtain ⟨hne, hnot⟩ := hnot
      rw [hkept y hy hyrole hnot]
      refine hothers y hy (fun hxy => hne (hxy ▸ hid)) fun hinter => ?_
      exact absurd hinter hyrole

end Deployment

/-! ## The invariant -/

/-- Before a step, the region of every tensor that has an array holds the array, if the tensor is
not intermediate or is live at the step or later. -/
def Mirrors (E : Encoding α) (h : Graph) (l : Layout) (s : Schedule) (step : Nat)
    (values : Values α) (m : Memory) : Prop :=
  ∀ x ∈ h.tensors, ∀ data, values.lookup x.id = some data →
    x.role ≠ .intermediate ∨ step ≤ (s.liveRange x).last → h.readTensor E l m x.id = .ok data

variable {s : Schedule} {done rest : List OperatorId} {values final : Values α} {m : Memory}
  {op : Operator} {a : Application} {u : Tensor}

/-- At the step of an operator the region of a tensor that it consumes holds the tensor's array. -/
theorem Mirrors.read_operand {k : Nat} (hm : Mirrors E h l s k values m) (hx : x ∈ h.tensors)
    (hconsumer : op.id ∈ x.consumers) (hstep : s.stepOf? op.id = some k) {xs : Array α}
    (hxs : values.lookup x.id = some xs) : h.readTensor E l m x.id = .ok xs :=
  hm x hx xs hxs (.inr (Schedule.le_last_of_consumer hconsumer hstep))

variable [Zero α] [Add α] [Mul α]

/-- A tensor that has an array and is needed later is live together with the result of the operator
that runs now. -/
theorem not_neverTogether (hg : g.Coherent) (htensors : h.tensors = g.tensors)
    (hc : h.Checked s) (hs : s.ordered = done ++ op.id :: rest) (hp : h.Progress done values)
    (hr : h.Runs values op a x u y data) {z : Tensor} (hz : z ∈ h.tensors) {zs : Array α}
    (hzs : values.lookup z.id = some zs) (hrole : z.role = .intermediate)
    (hlive : done.length + 1 ≤ (s.liveRange z).last) :
    ¬ (s.liveness g).NeverTogether z.id y.id := by
  rintro ⟨r, r', hr₁, hr₂, hnever⟩
  have hy := List.mem_of_getElem? hr.attached.result
  rw [hg.range?_liveness s (htensors ▸ hz)] at hr₁
  rw [hg.range?_liveness s (htensors ▸ hy)] at hr₂
  cases hr₁
  cases hr₂
  have hfirst : (s.liveRange y).first = done.length :=
    Schedule.first_liveRange hr.attached.producer (Schedule.stepOf?_eq hs (hc.fresh hs))
  have hlast := s.first_le_last y
  -- The tensor has an array already, so its producer has run.
  have hbefore : (s.liveRange z).first < done.length := by
    rcases (hp.valued z hz).1 ⟨zs, hzs⟩ with hinput | hweight | ⟨o, ho, hproducer⟩
    · rw [hinput] at hrole
      cases hrole
    · rw [hweight] at hrole
      cases hrole
    · obtain ⟨k, hk, hstep⟩ := Schedule.stepOf?_lt hs ho
      rw [Schedule.first_liveRange hproducer hstep]
      exact hk
  simp only [LiveRange.overlaps, Bool.and_eq_false_iff, decide_eq_false_iff_not] at hnever
  omega

/-- An operator that runs in the reference execution runs in memory: it reads the arrays of its
operands, and its result takes its place. -/
theorem Mirrors.step (hm : Mirrors E h l s done.length values m)
    (hd : Deployment p (s.liveness g) alignment l g h) (hh : h.Coherent) (hc : h.Checked s)
    (hs : s.ordered = done ++ op.id :: rest) (hp : h.Progress done values)
    (hr : h.Runs values op a x u y data) :
    ∃ xs ss after, values.lookup x.id = some xs ∧ values.lookup u.id = some ss ∧
      h.stepInMemory E l m op = .ok ([(x.id, xs), (u.id, ss)], after) ∧
      Mirrors E h l s (done.length + 1) ((a.result, data) :: values) after := by
  have hatt := hr.attached
  have hx := List.mem_of_getElem? hatt.data
  have hu := List.mem_of_getElem? hatt.parameter
  have hy := List.mem_of_getElem? hatt.result
  have hxid := hh.tensor_id _ _ hatt.data
  have huid := hh.tensor_id _ _ hatt.parameter
  have hyid := hh.tensor_id _ _ hatt.result
  obtain ⟨xs, ss, hxs, hss⟩ := operands_of_runOperator hr.applied hr.run
  have hstepOf := Schedule.stepOf?_eq hs (hc.fresh hs)
  have hreadx : h.readTensor E l m a.data = .ok xs := by
    rw [← hxid] at hxs ⊢
    exact hm.read_operand hx hatt.data_consumers hstepOf hxs
  have hreadu : h.readTensor E l m a.parameter = .ok ss := by
    rw [← huid] at hss ⊢
    exact hm.read_operand hu hatt.parameter_consumers hstepOf hss
  have hrun : h.runOperator op [(a.data, xs), (a.parameter, ss)] = .ok data := by
    rw [runOperator_operands hr.applied hxs hss, hr.run]
  have hfits : h.Fits y data := (hp.step hh (hc.edges hh) hr).fits y hy data (hr.lookup_self hh)
  obtain ⟨after, hwrite, hself, hothers⟩ := hd.exists_write (E := E) hy hfits m
  refine ⟨xs, ss, after, by rw [hxid, hxs], by rw [huid, hss], ?_, fun z hz zs hzs hneed => ?_⟩
  · simp only [Graph.stepInMemory, Operator.input_dataSlot hr.applied,
      Operator.input_parameterSlot hr.applied, Operator.output_resultSlot hr.applied,
      Execution.ofLowering, Computation.ok_bind, hreadx, hreadu, hrun, hxid, huid]
    rw [← hyid, hwrite]
    rfl
  · by_cases hzy : z = y
    · subst hzy
      rw [hr.lookup_self hh] at hzs
      cases hzs
      exact hself
    · rw [hr.lookup_other hh hz hzy] at hzs
      rw [hothers z hz hzy fun hrole _ => ?_]
      · exact hm z hz zs hzs (hneed.imp_right (by omega))
      · have hlast := hneed.resolve_left (not_not_intro hrole)
        exact not_neverTogether hd.coherent hd.narrows.tensors hc hs hp hr hz hzs hrole hlast

/-- What runs in the reference execution runs in memory: every read is the array that the execution
ends with, and the final memory mirrors the final arrays. -/
theorem Mirrors.run (hm : Mirrors E h l s done.length values m)
    (hd : Deployment p (s.liveness g) alignment l g h) (hh : h.Coherent) (hc : h.Checked s)
    (hs : s.ordered = done ++ rest) (hp : h.Progress done values)
    (hrun : h.runOperators values rest = .ok final) :
    ∃ reads after, h.runInMemory E l m rest = .ok (reads, after) ∧
      (∀ read ∈ reads, final.lookup read.1 = some read.2) ∧
      Mirrors E h l s s.ordered.length final after := by
  induction rest generalizing done values m with
  | nil =>
    cases hrun
    rw [List.append_nil] at hs
    exact ⟨[], m, rfl, nofun, by rwa [hs]⟩
  | cons id rest ih =>
    obtain ⟨op, a, x, u, y, data, hop, rfl, hr, hrest⟩ := Graph.runOperators_cons hh hrun
    obtain ⟨xs, ss, middle, hxs, hss, hstep, hmirrors⟩ := hm.step hd hh hc hs hp hr
    have hs' : s.ordered = (done ++ [op.id]) ++ rest := by
      rw [hs, List.append_assoc, List.singleton_append]
    have hlength : (done ++ [op.id]).length = done.length + 1 := List.length_append
    rw [← hlength] at hmirrors
    obtain ⟨reads, after, hafter, hreads, hfinal⟩ :=
      ih hmirrors hs' (hp.step hh (hc.edges hh) hr) hrest
    have hkept := fun {z : Tensor} (hz : z ∈ h.tensors) {zs : Array α}
      (hzs : values.lookup z.id = some zs) =>
        hp.lookup_run hh (hc.edges hh) (hs ▸ hc.nodup) hrun hz hzs
    refine ⟨(x.id, xs) :: (u.id, ss) :: reads, after, ?_, ?_, hfinal⟩
    · simp only [Graph.runInMemory, hop, Execution.ofLowering, Computation.ok_bind, hstep, hafter]
      rfl
    · refine List.forall_mem_cons.2 ⟨?_, List.forall_mem_cons.2 ⟨?_, hreads⟩⟩
      · exact hkept (List.mem_of_getElem? hr.attached.data) hxs
      · exact hkept (List.mem_of_getElem? hr.attached.parameter) hss

/-! ## Lowered, bound and executed graphs -/

namespace Graph

variable {config : Config} {program : Program} {bindings : List (SymbolId × Int64)}
  {host : HostData α} {T : Int64}

/-- The region of every tensor that the host supplies holds the host's array. -/
def HoldsHost (E : Encoding α) (h : Graph) (l : Layout) (host : HostData α) (m : Memory) : Prop :=
  ∀ x ∈ h.tensors, ∀ data, h.hostArray host x = .ok (some data) →
    h.readTensor E l m x.id = .ok data

/-- A graph that is lowered, then bound, then executed: its layout is deployed, the schedule is
still the one it was lowered with, and the execution is the run of that schedule on the host's
arrays. -/
theorem Reachable.exists_deployment (hg : g.Reachable) (hlower : g.lower config = .ok program)
    (hbind : g.bindAll bindings = .ok h) (hexec : h.execute host = .ok final)
    (hT : h.symbols.Evaluates program.layout.dynamicSize T) :
    ∃ s p values, g.schedule = .ok s ∧ h.schedule = .ok s ∧ h.Coherent ∧ h.Checked s ∧
      Deployment p (s.liveness g) config.alignment program.layout g h ∧
      h.hostValues host = .ok values ∧ h.runOperators values s.ordered = .ok final := by
  obtain ⟨-, s, hcheck, hs, hlayout, -⟩ := lower_eq_ok.1 hlower
  obtain ⟨-, p, hbuild⟩ := allocate_eq_ok hg.coherent hlayout
  obtain ⟨hn, hh⟩ := narrows_of_bindAll hg hbind
  have hc := hn.checked (hg.checked_of_check hcheck hs)
  have hs' : h.schedule = .ok s := by rw [hn.schedule_eq, hs]
  obtain ⟨values, hvalues, hexec⟩ := Computation.bind_eq_ok.1 hexec
  obtain ⟨s', hs'', hrun⟩ := Computation.bind_eq_ok.1 hexec
  rw [Execution.ofLowering_eq_ok] at hvalues hs''
  cases hs'.symm.trans hs''
  refine ⟨s, p, values, hs, hs', hh.coherent, hc, ?_, hvalues, hrun⟩
  refine ⟨hbuild, hg.coherent, hn, fun x hx => ?_, T, hT⟩
  -- In the end every tensor has an array, which fits a view.
  have hp := (progress_hostValues hh.coherent hvalues).run hh.coherent hc hrun
  obtain ⟨data, hdata⟩ := (hp.valued x hx).2 (hc.supplied_or_produced hx)
  obtain ⟨v, hv, -⟩ := hp.fits x hx data hdata
  exact ⟨v, hv⟩

/-- Any memory can be loaded with the host's arrays. -/
theorem Reachable.exists_holdsHost (E : Encoding α) (hg : g.Reachable)
    (hlower : g.lower config = .ok program) (hbind : g.bindAll bindings = .ok h)
    (hexec : h.execute host = .ok final)
    (hT : h.symbols.Evaluates program.layout.dynamicSize T) (m : Memory) :
    ∃ values start, h.hostValues host = .ok values ∧
      h.load E program.layout m values = .ok start ∧ h.HoldsHost E program.layout host start := by
  obtain ⟨s, p, values, -, -, hh, -, hd, hvalues, -⟩ :=
    hg.exists_deployment hlower hbind hexec hT
  have hentries : ∀ entry ∈ values, ∃ x ∈ h.tensors, x.id = entry.1 ∧ x.role ≠ .intermediate ∧
      h.Fits x entry.2 := by
    intro entry hentry
    obtain ⟨x, hx, hid, hdata⟩ := mem_hostValues hvalues hentry
    obtain ⟨hrole, hfits⟩ := hostArray_eq_ok hdata
    refine ⟨x, hx, hid, fun hinter => ?_, hfits _ rfl⟩
    simpa [hinter] using hrole.1 ⟨_, rfl⟩
  obtain ⟨start, hload, hreads, -⟩ :=
    hd.exists_load (E := E) (nodup_hostValues hh hvalues) hentries m
  refine ⟨values, start, hvalues, hload, fun x hx data hdata => ?_⟩
  rw [lookup_hostValues hh hvalues hx] at hdata
  obtain ⟨before, later, hsplit, -⟩ := List.lookup_eq_some_iff.1 (Except.ok.inj hdata)
  exact hreads (x.id, data) (by simp [hsplit])

/-- Shared memory computes what the reference execution computes. Every tensor has a place, and
there is a memory in which the regions of inputs and weights hold the host's arrays. From any such
memory the operators of the schedule run; everything they read is what the reference execution has
for the tensor; and in the end the regions of inputs, weights and outputs hold the arrays of the
reference execution. -/
theorem Reachable.memory_refines_execution (E : Encoding α) (hg : g.Reachable)
    (hlower : g.lower config = .ok program) (hbind : g.bindAll bindings = .ok h)
    (hexec : h.execute host = .ok final)
    (hT : h.symbols.Evaluates program.layout.dynamicSize T) :
    ∃ s, g.schedule = .ok s ∧ h.schedule = .ok s ∧
      (∀ x ∈ h.tensors, ∃ place, h.place program.layout x = .ok place) ∧
      (∃ m, h.HoldsHost E program.layout host m) ∧
      ∀ m, h.HoldsHost E program.layout host m → ∃ reads after,
        h.runInMemory E program.layout m s.ordered = .ok (reads, after) ∧
        (∀ read ∈ reads, final.get read.1 = .ok read.2) ∧
        ∀ x ∈ h.tensors, x.role ≠ .intermediate → ∃ data, final.get x.id = .ok data ∧
          h.readTensor E program.layout after x.id = .ok data := by
  obtain ⟨s, p, values, hs, hs', hh, hc, hd, hvalues, hrun⟩ :=
    hg.exists_deployment hlower hbind hexec hT
  obtain ⟨-, start, -, -, hholds⟩ :=
    hg.exists_holdsHost E hlower hbind hexec hT fun _ _ => 0
  have hp := progress_hostValues hh hvalues
  have hget : ∀ {id : TensorId} {data : Array α}, final.lookup id = some data →
      final.get id = .ok data := by
    intro id data hdata
    rw [Values.get, hdata]
  refine ⟨s, hs, hs', fun x hx => ?_, ⟨start, hholds⟩, fun m hm => ?_⟩
  · obtain ⟨place, hplace, -⟩ := hd.exists_place hx
    exact ⟨place, hplace⟩
  have hstart : Mirrors E h program.layout s ([] : List OperatorId).length values m := by
    intro x hx data hdata _
    refine hm x hx data ?_
    rw [lookup_hostValues hh hvalues hx, hdata]
  obtain ⟨reads, after, hafter, hreads, hend⟩ := hstart.run hd hh hc rfl hp hrun
  refine ⟨reads, after, hafter, fun read hread => hget (hreads read hread), fun x hx hrole => ?_⟩
  have hfinal := hp.run hh hc hrun
  obtain ⟨data, hdata⟩ := (hfinal.valued x hx).2 (hc.supplied_or_produced hx)
  exact ⟨data, hget hdata, hend x hx data hdata (.inl hrole)⟩

end Graph

end

/-! ## A batch of two -/

/-- A byte, four times over. -/
def Encoding.repeated : Encoding UInt8 where
  encode a _ := a
  decode bytes := bytes (Fin.last 3)
  decode_encode _ := rfl

namespace Graph

/-- The graph of `batchScaling` after its batch turned out to be two. -/
def batchOfTwo : Graph :=
  batchScaling.replay [.bind 0 2]

/-- Host data for `batchOfTwo`. -/
def batchOfTwoHost : HostData UInt8 where
  inputs := [("x", #[1, 1, 1, 1, 2, 2, 2, 2])]
  weights := [("s", #[1, 2, 3, 4])]

/-- Run in the layout that was made for a batch of any size, the scaling of a batch of two leaves
the scaled elements in the region of the output. -/
theorem memory_refines_execution_batchOfTwo :
    ∃ m reads after, batchOfTwo.HoldsHost .repeated batchScalingLayout batchOfTwoHost m ∧
      batchOfTwo.runInMemory .repeated batchScalingLayout m [0] = .ok (reads, after) ∧
      batchOfTwo.readTensor .repeated batchScalingLayout after 2 =
        .ok #[1, 2, 3, 4, 2, 4, 6, 8] := by
  have hsome : (batchScaling.lower .standard).toOption.isSome = true := by decide +kernel
  obtain ⟨program, hprogram⟩ := Option.isSome_iff_exists.1 hsome
  have hlower : batchScaling.lower .standard = .ok program := by
    revert hprogram
    cases batchScaling.lower .standard with
    | ok p => exact fun h => congrArg Except.ok (Option.some.inj h)
    | error e => exact nofun
  have hschedule : batchScaling.schedule = .ok ⟨[0]⟩ := by decide +kernel
  have hlayout : program.layout = batchScalingLayout := by
    obtain ⟨-, s, -, hs, hallocate, -⟩ := lower_eq_ok.1 hlower
    cases hschedule.symm.trans hs
    have hallocate' : batchScaling.allocate (Schedule.liveness ⟨[0]⟩ batchScaling) .standard =
        .ok batchScalingLayout := by decide +kernel
    exact Except.ok.inj (hallocate.symm.trans hallocate')
  have hbind : batchScaling.bindAll [(0, 2)] = .ok batchOfTwo := rfl
  have hexec : batchOfTwo.execute batchOfTwoHost = .ok [(2, #[1, 2, 3, 4, 2, 4, 6, 8]),
      (0, #[1, 1, 1, 1, 2, 2, 2, 2]), (1, #[1, 2, 3, 4])] := by decide +kernel
  have hT : batchOfTwo.symbols.Evaluates program.layout.dynamicSize 64 := by
    rw [hlayout]
    decide
  obtain ⟨s, hs, -, -, ⟨m, hm⟩, hrun⟩ :=
    Reachable.memory_refines_execution .repeated ⟨_, rfl⟩ hlower hbind hexec hT
  obtain ⟨reads, after, hafter, -, hend⟩ := hrun m hm
  cases hschedule.symm.trans hs
  rw [hlayout] at hm hafter hend
  have houtput : batchOfTwo.tensors.any fun x => x.id == 2 && x.role == .output := by decide
  obtain ⟨y, hy, hid⟩ := List.any_eq_true.1 houtput
  rw [Bool.and_eq_true, beq_iff_eq, beq_iff_eq] at hid
  obtain ⟨data, hdata, hread⟩ := hend y hy (by rw [hid.2]; decide)
  rw [hid.1] at hdata hread
  cases hdata
  exact ⟨m, reads, after, hm, hafter, hread⟩

end Graph

end TensorLowering
