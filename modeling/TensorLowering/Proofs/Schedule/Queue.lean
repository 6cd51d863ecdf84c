import Mathlib.Data.List.Nodup
import Mathlib.Data.List.Perm.Subperm
import TensorLowering.Schedule.Build

/-!
# The queue runs every operator, level by level

The queue only counts: an operator joins it when its count of missing operands reaches zero. Counts
are right as long as they are lowered once for every operand that an operator feeds
(`Queue.Counts`), and then the operators that join when one has run are those that waited for it and
have all their operands now (`Precedence.released`, `Precedence.advance_eq`).

The order follows from one invariant of the run (`Queue.Valid`): what is done or ready is what has
all its producers done, it is sorted by depth, and what is ready spans two levels at most. Every
step keeps it (`Precedence.advance_valid`), so every operator runs once, shallow ones first
(`Precedence.Layered.order`).
-/

namespace TensorLowering

/-! ## Counting operands -/

namespace Queue

variable {q : Queue} {id j op : OperatorId}

theorem count_notify (q : Queue) (id j : OperatorId) :
    (q.notify id).count j = if j = id then q.count j - 1 else q.count j := by
  simp only [count, notify]
  induction q.waiting with
  | nil => simp
  | cons entry rest ih =>
    obtain ⟨k, n⟩ := entry
    by_cases hk : j = k
    · subst hk
      by_cases hj : j = id <;> simp [hj]
    · simpa [List.lookup_cons, beq_eq_false_iff_ne.2 hk] using ih

/-- An operator that is notified of some of its operands, but not of more than it waits for, joins
the queue just when it waits for no other. -/
theorem notify_replicate (c : Nat) (hc : c ≤ q.count id) :
    ((List.replicate c id).foldl notify q).done = q.done ∧
      ((List.replicate c id).foldl notify q).ready =
        (if 0 < c ∧ q.count id = c then q.ready ++ [id] else q.ready) ∧
      ∀ j, ((List.replicate c id).foldl notify q).count j =
        if j = id then q.count j - c else q.count j := by
  induction c generalizing q with
  | zero => simp
  | succ c ih =>
    have hleft : (q.notify id).count id = q.count id - 1 := by rw [count_notify, if_pos rfl]
    obtain ⟨hdone, hready, hcount⟩ := ih (q := q.notify id) (by omega)
    rw [List.replicate_succ, List.foldl_cons]
    refine ⟨hdone, ?_, fun j => ?_⟩
    · rw [hready, hleft]
      by_cases hlast : q.count id = c + 1
      · by_cases hzero : c = 0 <;> simp [notify, hlast, hzero]
      · have hmore : q.count id - 1 ≠ 0 := by omega
        have hmore' : q.count id - 1 ≠ c := by omega
        simp [notify, hlast, hmore, hmore']
    · rw [hcount, count_notify]
      split
      · omega
      · rfl

/-- Every operator counts the operands whose producer has not run. -/
def Counts (q : Queue) (p : Precedence) : Prop :=
  ∀ e ∈ p, q.count e.1 = e.2.countP fun o => !q.done.contains o

end Queue

namespace Precedence

variable {p : Precedence} {q : Queue} {id op : OperatorId} {rest : List OperatorId}

/-- The operators that waited for `op` and have all their operands when `done` have run. -/
def released (p : Precedence) (done : List OperatorId) (op : OperatorId) : List OperatorId :=
  (p.filter fun e => e.2.contains op && e.2.all done.contains).map Prod.fst

theorem mem_released {done : List OperatorId} :
    id ∈ p.released done op ↔ ∃ e ∈ p, e.1 = id ∧ op ∈ e.2 ∧ ∀ o ∈ e.2, o ∈ done := by
  simp only [released, List.mem_map, List.mem_filter, Bool.and_eq_true, List.contains_iff_mem,
    List.all_eq_true]
  constructor
  · rintro ⟨e, ⟨he, hop, hall⟩, hid⟩
    exact ⟨e, he, hid, hop, hall⟩
  · rintro ⟨e, he, hid, hop, hall⟩
    exact ⟨e, ⟨he, hop, hall⟩, hid⟩

theorem fed_cons (e : OperatorId × List OperatorId) (p : Precedence) (op : OperatorId) :
    fed (e :: p) op = List.replicate (e.2.count op) e.1 ++ fed p op := by
  obtain ⟨id, producers⟩ := e
  simp [fed, List.count_eq_length_filter]

/-- Notifying all operators that `op` feeds lowers their counts by the operands it produces, and
lets those join that wait for no other. -/
theorem notify_fed (hnodup : (p.map Prod.fst).Nodup)
    (hle : ∀ e ∈ p, e.2.count op ≤ q.count e.1) :
    ((p.fed op).foldl Queue.notify q).done = q.done ∧
      ((p.fed op).foldl Queue.notify q).ready = q.ready ++
        (p.filter fun e => e.2.contains op && q.count e.1 == e.2.count op).map Prod.fst ∧
      (∀ e ∈ p, ((p.fed op).foldl Queue.notify q).count e.1 = q.count e.1 - e.2.count op) ∧
      ∀ j, j ∉ p.map Prod.fst → ((p.fed op).foldl Queue.notify q).count j = q.count j := by
  induction p generalizing q with
  | nil => simp [fed]
  | cons e p ih =>
    obtain ⟨hfresh, hnodup⟩ := List.nodup_cons.1 hnodup
    rw [fed_cons, List.foldl_append]
    obtain ⟨hdone, hready, hcount⟩ := Queue.notify_replicate _ (hle e List.mem_cons_self)
    have hother : ∀ e' ∈ p, e'.1 ≠ e.1 :=
      fun e' he' heq => hfresh (heq ▸ List.mem_map_of_mem he')
    have hsame : ∀ e' ∈ p, ((List.replicate (e.2.count op) e.1).foldl Queue.notify q).count e'.1 =
        q.count e'.1 := fun e' he' => by rw [hcount, if_neg (hother e' he')]
    obtain ⟨hdone', hready', hcount', houtside⟩ := ih hnodup
      (fun e' he' => (hsame e' he').symm ▸ hle e' (List.mem_cons_of_mem _ he'))
    refine ⟨hdone'.trans hdone, ?_, List.forall_mem_cons.2 ⟨?_, fun e' he' => ?_⟩, fun j hj => ?_⟩
    · have hfilter : (p.filter fun e' => e'.2.contains op &&
            ((List.replicate (e.2.count op) e.1).foldl Queue.notify q).count e'.1 ==
              e'.2.count op) =
          p.filter fun e' => e'.2.contains op && q.count e'.1 == e'.2.count op :=
        List.filter_congr fun e' he' => by rw [hsame e' he']
      rw [hready', hready, hfilter]
      by_cases hjoin : 0 < e.2.count op ∧ q.count e.1 = e.2.count op
      · have hmem : op ∈ e.2 := List.count_pos_iff.1 hjoin.1
        rw [if_pos hjoin, List.filter_cons_of_pos (by simp [hmem, hjoin.2])]
        simp
      · have hskip : ¬ ((e.2.contains op && q.count e.1 == e.2.count op) = true) := by
          simpa [List.count_pos_iff] using hjoin
        rw [if_neg hjoin, List.filter_cons, if_neg hskip]
    · rw [houtside _ hfresh, hcount, if_pos rfl]
    · rw [hcount' e' he', hsame e' he']
    · rw [List.map_cons, List.mem_cons, not_or] at hj
      rw [houtside j hj.2, hcount, if_neg hj.1]

/-- An operator that has run is one operand less for every place where it stands. -/
theorem countP_done {done : List OperatorId} (hop : op ∉ done) (producers : List OperatorId) :
    (producers.countP fun o => !done.contains o) =
      (producers.countP fun o => !(done ++ [op]).contains o) + producers.count op := by
  induction producers with
  | nil => rfl
  | cons o producers ih =>
    simp only [List.countP_cons, List.count_cons, ih]
    by_cases ho : o = op
    · subst ho
      simp [hop]
      omega
    · by_cases hd : o ∈ done <;> simp [ho, hd]
      omega

/-- With right counts, running an operator lets those join that waited for it and have all their
operands now, and counts stay right. -/
theorem advance_eq (hnodup : (p.map Prod.fst).Nodup) (hcounts : q.Counts p)
    (hready : q.ready = op :: rest) (hop : op ∉ q.done) :
    (p.advance q).done = q.done ++ [op] ∧
      (p.advance q).ready = rest ++ p.released (q.done ++ [op]) op ∧ (p.advance q).Counts p := by
  have hcount : ∀ e ∈ p, q.count e.1 =
      (e.2.countP fun o => !(q.done ++ [op]).contains o) + e.2.count op :=
    fun e he => by rw [hcounts e he, countP_done hop]
  have hle : ∀ e ∈ p, e.2.count op ≤ q.count e.1 := by
    intro e he
    rw [hcount e he]
    exact Nat.le_add_left ..
  obtain ⟨hdone', hready', hcounts', -⟩ :=
    notify_fed (q := { q with done := q.done ++ [op], ready := rest }) hnodup hle
  have hadvance : p.advance q =
      (p.fed op).foldl Queue.notify { q with done := q.done ++ [op], ready := rest } := by
    simp only [advance, hready]
  rw [hadvance]
  refine ⟨hdone', ?_, fun e he => ?_⟩
  · rw [hready', released]
    congr 2
    refine List.filter_congr fun e he => congrArg (e.2.contains op && ·) (Bool.eq_iff_iff.2 ?_)
    have hnone : (e.2.countP fun o => !(q.done ++ [op]).contains o) = 0 ↔
        e.2.all (q.done ++ [op]).contains = true := by
      simp [List.countP_eq_zero, or_iff_not_imp_left]
    rw [beq_iff_eq, ← hnone]
    have hq := hcount e he
    change q.count e.1 = _ ↔ _
    omega
  · rw [hcounts' e he, hdone']
    have hq := hcount e he
    change q.count e.1 - _ = List.countP (fun o => !(q.done ++ [op]).contains o) e.2
    omega

/-! ## Layers -/

/-- The operators that wait for no other, by handle. -/
def sources (p : Precedence) : List OperatorId :=
  (p.filter fun e => e.2.isEmpty).map Prod.fst

/-- Depths that count the layers of a precedence: operators without producers lie in layer zero,
every other just above its deepest producer. -/
structure Layered (p : Precedence) (depth : OperatorId → Nat) : Prop where
  ascending : (p.map Prod.fst).Pairwise (· < ·)
  closed : ∀ e ∈ p, ∀ o ∈ e.2, o ∈ p.map Prod.fst
  source : ∀ e ∈ p, e.2 = [] → depth e.1 = 0
  above : ∀ e ∈ p, ∀ o ∈ e.2, depth o < depth e.1
  deepest : ∀ e ∈ p, e.2 ≠ [] → ∃ o ∈ e.2, depth e.1 = depth o + 1

end Precedence

/-- The invariant of a run. Exactly the operators with all producers done are done or ready, each
once and by depth, and those that are ready lie in two layers at most. -/
structure Queue.Valid (q : Queue) (p : Precedence) (depth : OperatorId → Nat) : Prop where
  counts : q.Counts p
  nodup : (q.done ++ q.ready).Nodup
  known : ∀ id ∈ q.done ++ q.ready, id ∈ p.map Prod.fst
  joined : ∀ e ∈ p, e.1 ∈ q.done ++ q.ready ↔ ∀ o ∈ e.2, o ∈ q.done
  sorted : (q.done ++ q.ready).Pairwise fun i j => depth i ≤ depth j
  level : ∀ i ∈ q.ready, ∀ j ∈ q.ready, depth i ≤ depth j + 1
  sources : (q.done ++ q.ready).filter (fun id => depth id = 0) = p.sources

namespace Queue.Valid

variable {p : Precedence} {q : Queue} {id op : OperatorId} {rest : List OperatorId}
  {depth : OperatorId → Nat} (hq : q.Valid p depth) (hready : q.ready = op :: rest)
include hq hready

/-- The operator that runs next has not run before. -/
theorem head_not_done : op ∉ q.done := by
  obtain ⟨-, -, hdisjoint⟩ := List.nodup_append.1 hq.nodup
  exact fun hdone => hdisjoint op hdone op (by simp [hready]) rfl

theorem done_le_head (hid : id ∈ q.done) : depth id ≤ depth op :=
  (List.pairwise_append.1 hq.sorted).2.2 id hid op (by simp [hready])

theorem head_le (hid : id ∈ rest) : depth op ≤ depth id := by
  have hsorted := (List.pairwise_append.1 hq.sorted).2.1
  rw [hready] at hsorted
  exact (List.pairwise_cons.1 hsorted).1 id hid

/-- What is done or ready reaches up to the layer above that of the next operator. -/
theorem le_next_layer (hid : id ∈ q.done ++ q.ready) : depth id ≤ depth op + 1 := by
  rcases List.mem_append.1 hid with hdone | hwait
  · exact Nat.le_succ_of_le (hq.done_le_head hready hdone)
  · exact hq.level id hwait op (by simp [hready])

end Queue.Valid

namespace Precedence

variable {p : Precedence} {q : Queue} {id op : OperatorId} {rest : List OperatorId}
  {depth : OperatorId → Nat}

theorem Layered.nodup (hp : p.Layered depth) : (p.map Prod.fst).Nodup :=
  hp.ascending.imp Nat.ne_of_lt

/-- An operator stands once in a precedence. -/
theorem Layered.eq_of_id (hp : p.Layered depth) {e e' : OperatorId × List OperatorId} (he : e ∈ p)
    (he' : e' ∈ p) (hid : e.1 = e'.1) : e = e' :=
  List.inj_on_of_nodup_map hp.nodup he he' hid

theorem Layered.depth_of_mem_sources (hp : p.Layered depth) (hid : id ∈ p.sources) :
    depth id = 0 := by
  obtain ⟨e, he, rfl⟩ := List.mem_map.1 hid
  obtain ⟨he, hempty⟩ := List.mem_filter.1 he
  exact hp.source e he (List.isEmpty_iff.1 hempty)

theorem sources_sublist (p : Precedence) : p.sources.Sublist (p.map Prod.fst) :=
  List.filter_sublist.map _

theorem released_sublist (p : Precedence) (done : List OperatorId) (op : OperatorId) :
    (p.released done op).Sublist (p.map Prod.fst) :=
  List.filter_sublist.map _

/-- Before any operator has run, every operator counts all its operands. -/
theorem count_start (hnodup : (p.map Prod.fst).Nodup) :
    ∀ e ∈ p, p.start.count e.1 = e.2.length := by
  simp only [Queue.count, start]
  induction p with
  | nil => simp
  | cons e p ih =>
    obtain ⟨hfresh, hnodup⟩ := List.nodup_cons.1 hnodup
    rw [List.forall_mem_cons]
    refine ⟨by simp, fun e' he' => ?_⟩
    have hne : e'.1 ≠ e.1 := fun heq => hfresh (heq ▸ List.mem_map_of_mem he')
    rw [List.map_cons, List.lookup_cons, beq_eq_false_iff_ne.2 hne]
    exact ih hnodup e' he'

theorem start_valid (hp : p.Layered depth) : p.start.Valid p depth where
  counts := by
    intro e he
    rw [count_start hp.nodup e he]
    simp [start]
  nodup := p.sources_sublist.nodup hp.nodup
  known := fun id hid => p.sources_sublist.subset hid
  joined := by
    intro e he
    have hnone : (∀ o ∈ e.2, o ∈ p.start.done) ↔ e.2 = [] := by
      simp [start, List.eq_nil_iff_forall_not_mem]
    rw [hnone]
    constructor
    · intro hid
      obtain ⟨e', he', hid⟩ := List.mem_map.1 hid
      obtain ⟨he', hempty⟩ := List.mem_filter.1 he'
      exact hp.eq_of_id he' he hid ▸ List.isEmpty_iff.1 hempty
    · intro hempty
      exact List.mem_map_of_mem (List.mem_filter.2 ⟨he, List.isEmpty_iff.2 hempty⟩)
  sorted := by
    refine List.pairwise_of_forall_mem_list fun i hi j hj => ?_
    rw [hp.depth_of_mem_sources hi]
    exact Nat.zero_le _
  level := by
    intro i hi j hj
    rw [hp.depth_of_mem_sources hi]
    exact Nat.zero_le _
  sources := List.filter_eq_self.2 fun id hid => decide_eq_true (hp.depth_of_mem_sources hid)

/-- Operators that join when `op` has run lie one layer above it. -/
theorem depth_of_mem_released (hp : p.Layered depth) (hq : q.Valid p depth)
    (hready : q.ready = op :: rest) (hid : id ∈ p.released (q.done ++ [op]) op) :
    depth id = depth op + 1 := by
  obtain ⟨e, he, rfl, hop, hall⟩ := mem_released.1 hid
  obtain ⟨o, ho, hdeep⟩ := hp.deepest e he (List.ne_nil_of_mem hop)
  have habove := hp.above e he op hop
  have hle : depth o ≤ depth op := by
    rcases List.mem_append.1 (hall o ho) with hdone | hlast
    · exact hq.done_le_head hready hdone
    · exact Nat.le_of_eq (congrArg depth (List.mem_singleton.1 hlast))
  omega

/-- Operators that join when `op` has run were neither done nor ready. -/
theorem not_mem_of_released (hq : q.Valid p depth) (hready : q.ready = op :: rest)
    (hid : id ∈ p.released (q.done ++ [op]) op) : id ∉ q.done ++ q.ready := by
  obtain ⟨e, he, rfl, hmem, -⟩ := mem_released.1 hid
  exact fun hjoined => hq.head_not_done hready ((hq.joined e he).1 hjoined op hmem)

/-- With those that join when `op` has run, exactly the operators whose producers have all run have
joined. -/
theorem joined_released (hp : p.Layered depth) (hq : q.Valid p depth)
    {e : OperatorId × List OperatorId} (he : e ∈ p) :
    e.1 ∈ q.done ++ q.ready ∨ e.1 ∈ p.released (q.done ++ [op]) op ↔
      ∀ o ∈ e.2, o ∈ q.done ++ [op] := by
  rw [hq.joined e he, mem_released]
  constructor
  · rintro (hall | ⟨e', he', hid, -, hall⟩)
    · exact fun o ho => List.mem_append_left _ (hall o ho)
    · exact hp.eq_of_id he' he hid ▸ hall
  · intro hall
    by_cases hmem : op ∈ e.2
    · exact .inr ⟨e, he, rfl, hmem, hall⟩
    · refine .inl fun o ho => (List.mem_append.1 (hall o ho)).resolve_right fun hlast => ?_
      exact hmem (List.mem_singleton.1 hlast ▸ ho)

/-- What waits behind the next operator, and what joins when it has run, lies in its layer or in the
layer above. -/
theorem layer_of_mem_ready (hp : p.Layered depth) (hq : q.Valid p depth)
    (hready : q.ready = op :: rest) (hid : id ∈ rest ++ p.released (q.done ++ [op]) op) :
    depth op ≤ depth id ∧ depth id ≤ depth op + 1 := by
  rcases List.mem_append.1 hid with hwait | hjoin
  · exact ⟨hq.head_le hready hwait, hq.le_next_layer hready (by simp [hready, hwait])⟩
  · have heq := depth_of_mem_released hp hq hready hjoin
    omega

/-- Running an operator keeps the invariant. -/
theorem advance_valid (hp : p.Layered depth) (hq : q.Valid p depth) :
    (p.advance q).Valid p depth := by
  cases hready : q.ready with
  | nil => simpa [advance, hready] using hq
  | cons op rest =>
    obtain ⟨hdone', hready', hcounts'⟩ :=
      advance_eq hp.nodup hq.counts hready (hq.head_not_done hready)
    have hall : (p.advance q).done ++ (p.advance q).ready =
        (q.done ++ q.ready) ++ p.released (q.done ++ [op]) op := by
      simp [hdone', hready', hready]
    have hnew : ∀ id ∈ p.released (q.done ++ [op]) op, depth id = depth op + 1 :=
      fun id hid => depth_of_mem_released hp hq hready hid
    refine ⟨hcounts', ?nodup, ?known, ?joined, ?sorted, ?level, ?sources⟩
    case nodup =>
      rw [hall]
      refine List.nodup_append.2
        ⟨hq.nodup, (p.released_sublist _ _).nodup hp.nodup, fun i hi j hj hij => ?_⟩
      exact not_mem_of_released hq hready hj (hij ▸ hi)
    case known =>
      intro id hid
      rw [hall] at hid
      rcases List.mem_append.1 hid with hid | hid
      · exact hq.known id hid
      · exact (p.released_sublist _ _).subset hid
    case joined =>
      intro e he
      rw [hall, hdone', List.mem_append, joined_released hp hq he]
    case sorted =>
      rw [hall]
      refine List.pairwise_append.2 ⟨hq.sorted, ?_, fun i hi j hj => ?_⟩
      · exact List.pairwise_of_forall_mem_list fun i hi j hj =>
          Nat.le_of_eq ((hnew i hi).trans (hnew j hj).symm)
      · rw [hnew j hj]
        exact hq.le_next_layer hready hi
    case level =>
      intro i hi j hj
      rw [hready'] at hi hj
      have hi := layer_of_mem_ready hp hq hready hi
      have hj := layer_of_mem_ready hp hq hready hj
      omega
    case sources =>
      rw [hall, List.filter_append, hq.sources, List.filter_eq_nil_iff.2, List.append_nil]
      intro id hid
      simp [hnew id hid]

theorem run_of_ready_nil (hready : q.ready = []) (n : Nat) : p.run n q = q := by
  induction n with
  | zero => rfl
  | succ n ih =>
    rw [run, advance, hready]
    exact ih

/-- After `n` steps at least `n` operators have run, unless none is ready any more. -/
theorem run_valid (hp : p.Layered depth) (n : Nat) (hq : q.Valid p depth) :
    (p.run n q).Valid p depth ∧
      ((p.run n q).ready = [] ∨ q.done.length + n ≤ (p.run n q).done.length) := by
  induction n generalizing q with
  | zero => exact ⟨hq, .inr (Nat.le_refl _)⟩
  | succ n ih =>
    obtain ⟨hvalid, hprogress⟩ := ih (advance_valid hp hq)
    refine ⟨hvalid, ?_⟩
    cases hready : q.ready with
    | nil => exact .inl (by rw [run_of_ready_nil hready, hready])
    | cons op rest =>
      obtain ⟨hdone', -⟩ := advance_eq hp.nodup hq.counts hready (hq.head_not_done hready)
      rw [hdone', List.length_append, List.length_singleton] at hprogress
      exact hprogress.imp id fun hle => by rw [run]; omega

/-- The queue runs every operator once, by depth, and those of layer zero by handle. -/
theorem Layered.order (hp : p.Layered depth) :
    p.order.Perm (p.map Prod.fst) ∧ p.order.Pairwise (fun i j => depth i ≤ depth j) ∧
      p.order.filter (fun id => depth id = 0) = p.sources := by
  obtain ⟨hvalid, hprogress⟩ := run_valid hp p.length (start_valid hp)
  -- No more than all operators run, so none is left ready.
  have hempty : (p.run p.length p.start).ready = [] := by
    have hlen := (List.subperm_of_subset hvalid.nodup hvalid.known).length_le
    rw [List.length_append, List.length_map] at hlen
    rcases hprogress with hempty | hle
    · exact hempty
    · have hstart : p.start.done.length = 0 := rfl
      exact List.eq_nil_of_length_eq_zero (by omega)
  have hdone : (p.run p.length p.start).done ++ (p.run p.length p.start).ready = p.order := by
    rw [hempty, List.append_nil]
    rfl
  have hnodup := hdone ▸ hvalid.nodup
  have hknown := hdone ▸ hvalid.known
  refine ⟨?_, hdone ▸ hvalid.sorted, hdone ▸ hvalid.sources⟩
  -- An operator of least depth among those that have not run would have all its producers done.
  have hrun : ∀ d, ∀ e ∈ p, depth e.1 = d → e.1 ∈ p.order := by
    intro d
    induction d using Nat.strongRecOn with
    | ind d ih =>
      intro e he hd
      rw [← hdone, hvalid.joined e he]
      intro o ho
      obtain ⟨e', he', rfl⟩ := List.mem_map.1 (hp.closed e he o ho)
      exact ih _ (hd ▸ hp.above e he _ ho) e' he' rfl
  refine (List.perm_ext_iff_of_nodup hnodup hp.nodup).2 fun id => ⟨hknown id, fun hid => ?_⟩
  obtain ⟨e, he, rfl⟩ := List.mem_map.1 hid
  exact hrun _ e he rfl

end Precedence

end TensorLowering
