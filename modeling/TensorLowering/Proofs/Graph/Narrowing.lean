import TensorLowering.Schedule.Build
import TensorLowering.Proofs.Graph.Obligations

/-!
# Binding symbols keeps the structure

A graph can be run only when its symbols are bound, which may happen long after it was lowered.
`Graph.Narrows` relates a graph to what bindings make of it: the table knows more and operators may
carry fewer open obligations, but tensors and edges stay as they are. So the schedule stays as it is
too (`Graph.Narrows.schedule_eq`). A sequence of bindings (`Graph.bindAll`) narrows a graph
(`Graph.narrows_of_bindAll`).
-/

namespace TensorLowering

namespace Operator

variable {op : Operator} {pending : List Obligation}

theorem withPending_withPending (op : Operator) (pending others : List Obligation) :
    (op.withPending pending).withPending others = op.withPending others := by
  cases h : op.application <;> simp [withPending, h]

@[simp] theorem withPending_isApplied : (op.withPending pending).isApplied = op.isApplied := by
  cases h : op.application <;> simp [withPending, isApplied, h]

@[simp] theorem withPending_inputs : (op.withPending pending).inputs = op.inputs := by
  cases h : op.application <;> simp [withPending, inputs, h]

end Operator

namespace Graph

variable {g h k : Graph}

/-- The second graph has the tensors and edges of the first, a table that knows at least as much,
and possibly fewer open obligations. -/
structure Narrows (g h : Graph) : Prop where
  symbols : g.symbols.Extends h.symbols
  tensors : h.tensors = g.tensors
  operators : List.Forall₂ (fun op op' => ∃ pending, op' = op.withPending pending)
    g.operators h.operators

/-- The graph after a sequence of bindings, or the first failure. -/
def bindAll (g : Graph) (bindings : List (SymbolId × Int64)) : Lowering Graph :=
  bindings.foldlM (fun g binding => g.bind binding.1 binding.2) g

theorem Narrows.refl (g : Graph) : g.Narrows g :=
  ⟨.refl _, rfl, List.forall₂_same.2 fun op _ => ⟨op.pending, op.withPending_pending.symm⟩⟩

theorem Narrows.trans (h₁ : g.Narrows h) (h₂ : h.Narrows k) : g.Narrows k := by
  refine ⟨h₁.symbols.trans h₂.symbols, h₂.tensors.trans h₁.tensors,
    Computation.forall₂_trans h₁.operators h₂.operators ?_⟩
  rintro op _ _ ⟨pending, rfl⟩ ⟨others, rfl⟩
  exact ⟨others, Operator.withPending_withPending _ _ _⟩

/-- A successful binding narrows a graph. -/
theorem narrows_of_bind {s : SymbolId} {n : Int64} (hb : g.bind s n = .ok h) : g.Narrows h := by
  obtain ⟨bound, hbound, hb⟩ := Computation.bind_eq_ok.1 hb
  cases bound with
  | none =>
    cases hb
    exact .refl g
  | some t =>
    obtain ⟨operators, hops, rfl⟩ := settle_eq_ok.1 hb
    refine ⟨SymbolTable.extends_of_bind hbound, rfl, hops.imp ?_⟩
    rintro op op' ⟨-, rfl⟩
    exact ⟨_, rfl⟩

/-- A sequence of successful bindings narrows a graph, and leaves it reachable. -/
theorem narrows_of_bindAll {bindings : List (SymbolId × Int64)} (hg : g.Reachable)
    (hb : g.bindAll bindings = .ok h) : g.Narrows h ∧ h.Reachable := by
  refine Computation.foldlM_invariant (P := fun k => g.Narrows k ∧ k.Reachable)
    (fun k k' binding _ hk hbind => ?_) ⟨.refl g, hg⟩ hb
  exact ⟨hk.1.trans (narrows_of_bind hbind), hk.2.run (e := .bind binding.1 binding.2) hbind⟩

/-! ## The schedule -/

/-- The operators at one position are the same up to their open obligations, or both missing. -/
theorem Narrows.operator_cases (hn : g.Narrows h) (i : OperatorId) :
    (∃ op pending, g.operator i = .ok op ∧ h.operator i = .ok (op.withPending pending)) ∨
      h.operator i = g.operator i := by
  cases hop : g.operators[i]? with
  | none =>
    have hlen := hn.operators.length_eq
    have hop' : h.operators[i]? = none := by
      rw [List.getElem?_eq_none_iff] at hop ⊢
      omega
    exact .inr (by rw [operator, operator, hop, hop'])
  | some op =>
    obtain ⟨op', hop', pending, rfl⟩ := Computation.exists_result hn.operators hop
    exact .inl ⟨op, pending, operator_eq_ok.2 hop, operator_eq_ok.2 hop'⟩

theorem Narrows.producers_eq (hn : g.Narrows h) (op : Operator) (pending : List Obligation) :
    h.producers (op.withPending pending) = g.producers op := by
  simp only [producers, Operator.withPending_inputs, tensor, hn.tensors]

/-- Whether an operator has been applied reads the same in both graphs. -/
theorem Narrows.operator_bind_isApplied (hn : g.Narrows h) {β : Type} (i : OperatorId)
    (f : Bool → Lowering β) :
    (h.operator i >>= fun op => f op.isApplied) = (g.operator i >>= fun op => f op.isApplied) := by
  rcases hn.operator_cases i with ⟨op, pending, hop, hop'⟩ | heq
  · rw [hop, hop', Computation.ok_bind, Computation.ok_bind, Operator.withPending_isApplied]
  · rw [heq]

/-- Bindings do not change what operators wait for. -/
theorem Narrows.precedence_eq (hn : g.Narrows h) : h.precedence = g.precedence := by
  have happlied : List.Forall₂ (fun op op' => ∃ pending, op' = op.withPending pending)
      g.applied h.applied := by
    refine List.rel_filter ?_ hn.operators
    rintro op op' ⟨pending, rfl⟩
    simp
  refine (Computation.mapM_congr (happlied.imp ?_)).symm
  rintro op op' ⟨pending, rfl⟩
  rw [hn.producers_eq]
  refine bind_congr fun producers => ?_
  refine congrArg (fun check : String × OperatorId → Lowering Unit =>
    producers.forM check >>= fun _ => pure (op.id, producers.map Prod.snd)) (funext fun x => ?_)
  exact (hn.operator_bind_isApplied x.2 fun applied => if !applied then
    throw (.invalidGraph (.unappliedProducer op.label x.1 x.2)) else pure ()).symm

/-- Bindings do not change the schedule. -/
theorem Narrows.schedule_eq (hn : g.Narrows h) : h.schedule = g.schedule := by
  rw [schedule, schedule, hn.precedence_eq]

end Graph

end TensorLowering
