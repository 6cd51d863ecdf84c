import Mathlib.Order.Bounds.Basic
import TensorLowering.Proofs.Graph.Consumers
import TensorLowering.Proofs.Liveness
import TensorLowering.Proofs.Schedule.Check

/-!
# Live ranges end where they may

A schedule that runs every applied operator once, after what feeds it (`Schedule.Serves`), plans for
every tensor a range that begins where the tensor is produced and ends where it is read last
(`LiveRange.Exact`, `Schedule.Serves.exact`). Ranges that overlap two by two have a step in common
(`LiveRange.exists_common`), so the largest number of tensors that are live at one step is the
largest number of ranges that overlap two by two (`LivenessPlan.peak_isGreatest`).
-/

namespace TensorLowering

/-! ## Ranges that overlap two by two -/

namespace LiveRange

/-- Ranges that overlap two by two have the first step of one of them in common: the latest of
their first steps. -/
theorem exists_common {group : List LiveRange} (hne : group ≠ [])
    (hrange : ∀ r ∈ group, r.first ≤ r.last) (hgroup : group.Pairwise fun a b => a.overlaps b) :
    ∃ r ∈ group, ∀ q ∈ group, q.liveAt r.first = true := by
  induction group with
  | nil => exact absurd rfl hne
  | cons a rest ih =>
    obtain ⟨ha, hrest⟩ := List.forall_mem_cons.1 hrange
    obtain ⟨hmeets, hpairs⟩ := List.pairwise_cons.1 hgroup
    have hself : a.liveAt a.first = true := by simpa [liveAt] using ha
    cases rest with
    | nil => exact ⟨a, List.mem_cons_self, by simpa using hself⟩
    | cons b others =>
      obtain ⟨m, hm, hlive⟩ := ih (List.cons_ne_nil _ _) hrest hpairs
      simp only [overlaps, liveAt, Bool.and_eq_true, decide_eq_true_eq] at hmeets hlive hself ⊢
      rcases Nat.le_total a.first m.first with hle | hle
      · refine ⟨m, List.mem_cons_of_mem _ hm, List.forall_mem_cons.2 ⟨⟨hle, ?_⟩, hlive⟩⟩
        exact (hmeets m hm).2
      · refine ⟨a, List.mem_cons_self, List.forall_mem_cons.2 ⟨hself, fun q hq => ?_⟩⟩
        exact ⟨(hlive q hq).1.trans hle, (hmeets q hq).1⟩

end LiveRange

/-- Some of the ranges, which overlap two by two. -/
def OverlapInPairs (ranges group : List LiveRange) : Prop :=
  group.Sublist ranges ∧ group.Pairwise fun a b => a.overlaps b

/-- The peak of ranges within the steps of a schedule is the largest number of ranges that overlap
two by two. -/
theorem LivenessPlan.peak_isGreatest {ranges : List LiveRange} {moments : Nat}
    (h : ∀ r ∈ ranges, r.first ≤ r.last ∧ r.last < moments) :
    IsGreatest {n | ∃ group, OverlapInPairs ranges group ∧ group.length = n}
      (((List.range moments).map fun step => ranges.countP (·.liveAt step)).foldl max 0) := by
  constructor
  · rcases foldl_max_eq_or_mem
      ((List.range moments).map fun step => ranges.countP (·.liveAt step)) 0 with hzero | hmem
    · exact ⟨[], ⟨List.nil_sublist _, .nil⟩, hzero.symm⟩
    · obtain ⟨step, -, hcount⟩ := List.mem_map.1 hmem
      refine ⟨ranges.filter (·.liveAt step), ⟨List.filter_sublist, ?_⟩, ?_⟩
      · refine List.pairwise_of_forall_mem_list fun a ha b hb => ?_
        exact LiveRange.overlaps_of_liveAt (List.mem_filter.1 ha).2 (List.mem_filter.1 hb).2
      · rw [← hcount, List.countP_eq_length_filter]
  · rintro n ⟨group, ⟨hsub, hpairs⟩, rfl⟩
    by_cases hnil : group = []
    · simp [hnil]
    · obtain ⟨r, hr, hlive⟩ := LiveRange.exists_common hnil
        (fun r hr => (h r (hsub.subset hr)).1) hpairs
      have hmoment : r.first < moments := by
        have := h r (hsub.subset hr)
        omega
      calc group.length = group.countP (·.liveAt r.first) := (List.countP_eq_length.2 hlive).symm
        _ ≤ ranges.countP (·.liveAt r.first) := hsub.countP_le
        _ ≤ _ := le_foldl_max (.inr (List.mem_map.2 ⟨_, List.mem_range.2 hmoment, rfl⟩))

/-! ## Ranges of the tensors of a graph -/

/-- The range of a tensor is as long as it has to be: from the step that produces the tensor, the
first one if no operator does, to the last step for an output and to its last reader otherwise. -/
structure LiveRange.Exact (s : Schedule) (x : Tensor) (r : LiveRange) : Prop where
  tensor : r.tensor = x.id
  role : r.role = x.role
  first_le_last : r.first ≤ r.last
  within : r.last ≤ max s.steps 1 - 1
  supplied : x.producer = none → r.first = 0
  produced : ∀ o, x.producer = some o → s.stepOf? o = some r.first
  output : x.role = .output → r.last = max s.steps 1 - 1
  unread : x.role ≠ .output → x.consumers = [] → r.last = r.first
  lastReader : x.role ≠ .output → x.consumers ≠ [] → ∃ o ∈ x.consumers, s.stepOf? o = some r.last
  readers : ∀ o ∈ x.consumers, ∃ k, s.stepOf? o = some k ∧ r.first ≤ k ∧ k ≤ r.last

/-- A schedule serves a graph when it runs every applied operator once, after the operators that
feed it. -/
structure Schedule.Serves (s : Schedule) (g : Graph) : Prop where
  once : ∀ o op, g.operators[o]? = some op → op.isApplied = true → s.ordered.count o = 1
  fed : ∀ before after o op, s.ordered = before ++ o :: after → g.operators[o]? = some op →
    ∀ f ∈ g.feeders op, f ∈ before

theorem Schedule.Valid.serves {s : Schedule} {g : Graph} (hs : s.Valid g) : s.Serves g := by
  refine ⟨fun o op hop happ => ?_, hs.fed⟩
  exact List.count_eq_one_of_mem hs.nodup ((hs.mem_iff o).2 ⟨op, hop, happ⟩)

/-- The live range that a schedule plans for a tensor is that of the tensor with this handle. -/
theorem Graph.Coherent.range?_liveness {g : Graph} (hg : g.Coherent) (s : Schedule) {x : Tensor}
    (hx : x ∈ g.tensors) : (s.liveness g).range? x.id = some (s.liveRange x) := by
  have hkeys : ((s.liveness g).ranges.map (·.tensor)).Nodup := by
    have := hg.nodup_ids
    simpa [Schedule.liveness, Function.comp_def, Schedule.liveRange] using this
  exact Computation.find?_key (k := LiveRange.tensor) hkeys (List.mem_map_of_mem hx)

namespace Schedule.Serves

variable {s : Schedule} {g : Graph} {o f : OperatorId} {op : Operator} {k : Nat} {x : Tensor}

theorem exists_step (hs : s.Serves g) (hop : g.operators[o]? = some op)
    (happ : op.isApplied = true) : ∃ k, s.stepOf? o = some k := by
  refine Schedule.exists_step (List.count_pos_iff.1 ?_)
  rw [hs.once o op hop happ]
  exact Nat.one_pos

/-- What feeds an operator runs at an earlier step. -/
theorem feeder_lt (hs : s.Serves g) (hop : g.operators[o]? = some op)
    (hk : s.stepOf? o = some k) (hf : f ∈ g.feeders op) : ∃ j < k, s.stepOf? f = some j := by
  obtain ⟨before, after, hsplit, rfl⟩ := exists_split hk
  exact stepOf?_lt hsplit (hs.fed before after o op hsplit hop f hf)

/-- A tensor of a graph is produced, if it is, before every step that reads it. -/
theorem first_le_reader (hs : s.Serves g) (hg : g.Reachable) (hx : x ∈ g.tensors)
    (ho : o ∈ x.consumers) : ∃ k, s.stepOf? o = some k ∧ (s.liveRange x).first ≤ k := by
  have hxi := hg.coherent.tensor_eq_some hx
  obtain ⟨op, a, hop, ha, hread⟩ := (hg.consumed _ x hxi).2 o ho
  obtain ⟨k, hk⟩ := hs.exists_step hop (by simp [Operator.isApplied, ha])
  refine ⟨k, hk, ?_⟩
  cases hproducer : x.producer with
  | none => simp [liveRange, hproducer]
  | some f =>
    have hf : f ∈ g.feeders op := by
      obtain ⟨x', w, y, hatt⟩ := hg.coherent.attached op (List.mem_of_getElem? hop) a ha
      rw [Graph.mem_feeders ha hatt]
      rcases hread with heq | heq
      · have hdata := hatt.data
        rw [heq, hxi] at hdata
        cases hdata
        exact .inl hproducer
      · have hparameter := hatt.parameter
        rw [heq, hxi] at hparameter
        cases hparameter
        exact .inr hproducer
    obtain ⟨j, hj, hstep⟩ := hs.feeder_lt hop hk hf
    rw [first_liveRange hproducer hstep]
    exact Nat.le_of_lt hj

/-- A tensor that is read and is not an output is kept up to the step of a reader: no reader runs
before the first step of the range, so that step does not decide. -/
theorem exists_last_reader (hs : s.Serves g) (hg : g.Reachable) (hx : x ∈ g.tensors)
    (hrole : x.role ≠ .output) (hne : x.consumers ≠ []) :
    ∃ o ∈ x.consumers, s.stepOf? o = some (s.liveRange x).last := by
  rcases foldl_max_eq_or_mem (x.consumers.filterMap s.stepOf?) (s.liveRange x).first with
    heq | hmem
  · obtain ⟨o, ho⟩ := List.exists_mem_of_ne_nil _ hne
    obtain ⟨k, hk, hfirst⟩ := hs.first_le_reader hg hx ho
    have hlast := le_last_of_consumer ho hk
    rw [last_liveRange hrole, heq] at hlast ⊢
    exact ⟨o, ho, by rw [hk, Nat.le_antisymm hlast hfirst]⟩
  · rw [← last_liveRange hrole] at hmem
    exact List.mem_filterMap.1 hmem

/-- A tensor that an operator produces is live from the step of the operator. -/
theorem stepOf?_producer (hs : s.Serves g) (hg : g.Reachable) (hx : x ∈ g.tensors)
    (ho : x.producer = some o) : s.stepOf? o = some (s.liveRange x).first := by
  obtain ⟨-, op, a, hop, ha, -⟩ := hg.produced _ x o (hg.coherent.tensor_eq_some hx) ho
  obtain ⟨k, hk⟩ := hs.exists_step hop (by simp [Operator.isApplied, ha])
  rw [first_liveRange ho hk, hk]

/-- Every range ends within the schedule, or at step zero when that has no steps. -/
theorem last_lt (hs : s.Serves g) (hg : g.Reachable) (hx : x ∈ g.tensors) :
    (s.liveRange x).last < max s.steps 1 := by
  have hfirst : (s.liveRange x).first < max s.steps 1 := by
    cases hproducer : x.producer with
    | none => simp [liveRange, hproducer]
    | some o =>
      have := stepOf?_lt_steps (hs.stepOf?_producer hg hx hproducer)
      omega
  by_cases hrole : x.role = .output
  · simp only [liveRange, hrole, lastStep] at hfirst ⊢
    omega
  · by_cases hne : x.consumers = []
    · rwa [last_liveRange hrole, hne]
    · obtain ⟨o, -, ho⟩ := hs.exists_last_reader hg hx hrole hne
      have := stepOf?_lt_steps ho
      omega

/-- The ranges that the schedule plans are exact. -/
theorem exact (hs : s.Serves g) (hg : g.Reachable) (hx : x ∈ g.tensors) :
    (s.liveRange x).Exact s x where
  tensor := rfl
  role := rfl
  first_le_last := s.first_le_last x
  within := Nat.le_sub_one_of_lt (hs.last_lt hg hx)
  supplied hnone := by simp [liveRange, hnone]
  produced _ := hs.stepOf?_producer hg hx
  output hrole := by
    have hlast := hs.last_lt hg hx
    simp only [liveRange, hrole, lastStep] at hlast ⊢
    omega
  unread hrole hnil := by
    rw [last_liveRange hrole, hnil]
    rfl
  lastReader := hs.exists_last_reader hg hx
  readers o ho := by
    obtain ⟨k, hk, hfirst⟩ := hs.first_le_reader hg hx ho
    exact ⟨k, hk, hfirst, le_last_of_consumer ho hk⟩

end Schedule.Serves

/-! ## Plans of reachable graphs -/

namespace Graph

variable {g : Graph} {s : Schedule}

/-- A schedule that runs every applied operator once, after what feeds it, keeps every tensor live
as long as it has to be and no longer: there is one range for each tensor, from its producer to its
last reader, or to the last step for an output. At the step of an operator its operands and its
result are live. The peak is the largest number of ranges that overlap two by two. -/
theorem Reachable.liveness_exact (hg : g.Reachable) (hs : s.Serves g) :
    List.Forall₂ (fun x r => r.Exact s x) g.tensors (s.liveness g).ranges ∧
      (∀ o op, g.operators[o]? = some op → op.isApplied = true →
        ∃ k, s.stepOf? o = some k ∧ ∀ slot ∈ op.inputs ++ op.outputs,
          ∃ r, (s.liveness g).range? slot.2 = some r ∧ r.liveAt k = true) ∧
      IsGreatest {n | ∃ group, OverlapInPairs (s.liveness g).ranges group ∧ group.length = n}
        (s.liveness g).peak := by
  refine ⟨?_, fun o op hop happ => ?_, LivenessPlan.peak_isGreatest fun r hr => ?_⟩
  · exact List.forall₂_map_right_iff.2 (List.forall₂_same.2 fun x hx => hs.exact hg hx)
  · obtain ⟨a, ha⟩ := Option.isSome_iff_exists.1 happ
    obtain ⟨k, hk⟩ := hs.exists_step hop happ
    obtain ⟨x, w, y, hatt⟩ := hg.coherent.attached op (List.mem_of_getElem? hop) a ha
    rw [← hg.coherent.operator_id o op hop] at hk
    have hlive : ∀ {i z}, g.tensors[i]? = some z →
        (s.liveRange z).first ≤ k → k ≤ (s.liveRange z).last →
        ∃ r, (s.liveness g).range? i = some r ∧ r.liveAt k = true := by
      intro i z hz hfirst hlast
      rw [← hg.coherent.tensor_id i z hz]
      refine ⟨_, hg.coherent.range?_liveness s (List.mem_of_getElem? hz), ?_⟩
      simpa [LiveRange.liveAt] using ⟨hfirst, hlast⟩
    have hoperand : ∀ {i z}, g.tensors[i]? = some z → op.id ∈ z.consumers →
        ∃ r, (s.liveness g).range? i = some r ∧ r.liveAt k = true := by
      intro i z hz hmem
      obtain ⟨k', hk', hfirst, hlast⟩ := (hs.exact hg (List.mem_of_getElem? hz)).readers _ hmem
      cases hk.symm.trans hk'
      exact hlive hz hfirst hlast
    have hresult : ∃ r, (s.liveness g).range? a.result = some r ∧ r.liveAt k = true := by
      have hfirst := Schedule.first_liveRange hatt.producer hk
      exact hlive hatt.result hfirst.le (hfirst ▸ s.first_le_last y)
    refine ⟨k, hg.coherent.operator_id o op hop ▸ hk, ?_⟩
    simp only [Operator.inputs, Operator.outputs, ha, List.forall_mem_append,
      List.forall_mem_cons]
    exact ⟨⟨hoperand hatt.data hatt.data_consumers, hoperand hatt.parameter hatt.parameter_consumers,
      List.forall_mem_nil _⟩, hresult, List.forall_mem_nil _⟩
  · obtain ⟨x, hx, rfl⟩ := List.mem_map.1 hr
    exact ⟨s.first_le_last x, hs.last_lt hg hx⟩

/-- In a schedule that is not the built one, the result of the second operator is live until the
first has read it in both slots, and no three tensors are live at once. -/
theorem liveness_exact_doubledFeeder :
    doubledFeeder.Reachable ∧ Schedule.Serves ⟨[2, 1, 0]⟩ doubledFeeder ∧
      (∃ r, (Schedule.liveness ⟨[2, 1, 0]⟩ doubledFeeder).range? 1 = some r ∧
        r.liveAt 2 = true) ∧
      ∀ group, OverlapInPairs (Schedule.liveness ⟨[2, 1, 0]⟩ doubledFeeder).ranges group →
        group.length ≤ 2 := by
  have hg : doubledFeeder.Reachable := ⟨_, rfl⟩
  have hs : Schedule.Serves ⟨[2, 1, 0]⟩ doubledFeeder :=
    (hg.coherent.valid_iff.2 ⟨hg.coherent.checkSchedule_eq_ok.1 rfl, by decide⟩).serves
  obtain ⟨-, hlive, hpeak⟩ := Reachable.liveness_exact hg hs
  refine ⟨hg, hs, ?_, fun group hgroup => ?_⟩
  · obtain ⟨k, hk, hslots⟩ := hlive 0 _ rfl rfl
    cases hk
    exact hslots ("x", 1) (by decide)
  · exact hpeak.2 ⟨group, hgroup, rfl⟩

end Graph

end TensorLowering
