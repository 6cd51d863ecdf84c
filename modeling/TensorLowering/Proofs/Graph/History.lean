import TensorLowering.Proofs.Graph.Interleaving
import TensorLowering.Proofs.Symbol.Failure

/-!
# What later steps keep

A layout, a kernel or a binding is made at one moment and used at a later one, when the same graph
has seen further steps, successful ones and failed ones. `Graph.Reachable.replay_keeps` collects
what such steps cannot change: values of symbols and of extents, failures of the arithmetic, and
everything that `Graph.Grows` says about nodes. It rests on two facts about single steps: they let
the graph grow (`Graph.Reachable.grows_run`), and they bind no symbol to a negative value
(`Graph.nonneg_run`).
-/

namespace TensorLowering

/-! ## Growth is transitive -/

theorem Tensor.Grows.trans {x y z : Tensor} (h₁ : x.Grows y) (h₂ : y.Grows z) : x.Grows z where
  id := h₂.id.trans h₁.id
  name := h₂.name.trans h₁.name
  producer := h₂.producer.trans h₁.producer
  consumers := h₁.consumers.trans h₂.consumers
  shape := by
    intro hx
    -- The middle tensor has the edge too: producers are kept and consumers are only added.
    have hy : y.IsConnected := by
      rcases hx with hprod | hcons
      · exact .inl (h₁.producer ▸ hprod)
      · exact .inr fun hnil => hcons (List.prefix_nil.1 (hnil ▸ h₁.consumers))
    rw [h₂.shape hy, h₁.shape hx]
  role := by
    rcases h₁.role with hxy | ⟨hx, hy⟩
    · rw [← hxy]
      exact h₂.role
    · rcases h₂.role with hyz | ⟨-, hz⟩
      · exact .inr ⟨hx, hyz.trans hy⟩
      · exact .inr ⟨hx, hz⟩

theorem Operator.Grows.trans {op op' op'' : Operator} (h₁ : op.Grows op') (h₂ : op'.Grows op'') :
    op.Grows op'' where
  id := h₂.id.trans h₁.id
  name := h₂.name.trans h₁.name
  kind := h₂.kind.trans h₁.kind
  application := by
    intro a ha
    obtain ⟨pending, ha', hsub⟩ := h₁.application a ha
    obtain ⟨pending', ha'', hsub'⟩ := h₂.application _ ha'
    exact ⟨pending', ha'', hsub'.trans hsub⟩

namespace Graph

variable {g h k : Graph} {e : Edit}

theorem Grows.refl (g : Graph) : g.Grows g :=
  ⟨.refl _, fun _ x hx => ⟨x, hx, .refl x⟩, fun _ op hop => ⟨op, hop, .refl op⟩⟩

theorem Grows.trans (h₁ : g.Grows h) (h₂ : h.Grows k) : g.Grows k where
  symbols := h₁.symbols.trans h₂.symbols
  tensors := by
    intro i x hx
    obtain ⟨y, hy, hxy⟩ := h₁.tensors i x hx
    obtain ⟨z, hz, hyz⟩ := h₂.tensors i y hy
    exact ⟨z, hz, hxy.trans hyz⟩
  operators := by
    intro i op hop
    obtain ⟨op', hop', hgrow⟩ := h₁.operators i op hop
    obtain ⟨op'', hop'', hgrow'⟩ := h₂.operators i op' hop'
    exact ⟨op'', hop'', hgrow.trans hgrow'⟩

/-! ## Scripts -/

/-- A successful edit lets a reachable graph grow. -/
theorem Reachable.grows_run (hg : g.Reachable) (he : e.run g = .ok h) : g.Grows h := by
  rcases Edit.step_of_run he with rfl | hstep
  · exact .refl _
  · exact hstep.grows hg.coherent

/-- A script lets a reachable graph grow. -/
theorem Reachable.grows_replay (hg : g.Reachable) (script : List Edit) :
    (g.replay script).Reachable ∧ g.Grows (g.replay script) :=
  replay_invariant (P := fun h => h.Reachable ∧ g.Grows h)
    (fun hh he => ⟨hh.1.run he, hh.2.trans (hh.1.grows_run he)⟩) ⟨hg, .refl g⟩ script

/-! ## Bound values -/

/-- No symbol is bound to a negative value. -/
def NonNegative (g : Graph) : Prop :=
  ∀ (j : SymbolId) (n : Int64), g.symbols.value? j = some n → 0 ≤ n

theorem NonNegative.empty : NonNegative .empty := by
  intro j n hn
  cases hn

theorem NonNegative.of_symbols (hg : g.NonNegative) (heq : h.symbols = g.symbols) :
    h.NonNegative := by
  unfold NonNegative
  rw [heq]
  exact hg

/-- An edit binds no symbol to a negative value. -/
theorem nonneg_run (hg : g.NonNegative) (he : e.run g = .ok h) : h.NonNegative := by
  cases e with
  | addSymbol label =>
    cases he
    intro j n hn
    exact hg j n (by rwa [addSymbol, SymbolTable.value?_create] at hn)
  | bind s value =>
    intro j n hn
    rw [value?_bind he] at hn
    split at hn
    · cases hn
      obtain ⟨bound, hb, -⟩ := Computation.bind_eq_ok.1 he
      exact (SymbolTable.bind_eq_ok hb).choose_spec.2.1
    · exact hg j n hn
  | revalidate =>
    obtain ⟨operators, -, rfl⟩ := settle_eq_ok.1 he
    exact hg
  | addTensor | addOperator | markOutput | changeOrder | apply =>
    exact hg.of_symbols (symbols_run rfl he)

/-- In a reachable graph no bound value is negative. -/
theorem Reachable.nonneg (hg : g.Reachable) : g.NonNegative := by
  obtain ⟨script, rfl⟩ := hg
  exact replay_invariant nonneg_run .empty script

/-! ## What is kept -/

/-- However a reachable graph came about, and whatever steps follow, successful or not: symbols keep
their values, none of which is negative; extents keep their values, and those that have met
something unsupported keep failing for that reason; tensors and operators stay at their handles and
change only as `Tensor.Grows` and `Operator.Grows` allow. -/
theorem Reachable.replay_keeps (hg : g.Reachable) (script : List Edit) :
    (∀ (j : SymbolId) (n : Int64), g.symbols.value? j = some n →
        (g.replay script).symbols.value? j = some n) ∧
      (g.replay script).NonNegative ∧
      (∀ (a : Extent) (n : Int64), g.symbols.Evaluates a n →
        (g.replay script).symbols.Evaluates a n) ∧
      (∀ a : Extent, g.symbols.Unsupported a → (g.replay script).symbols.Unsupported a) ∧
      (∀ (i : TensorId) (x : Tensor), g.tensors[i]? = some x →
        ∃ y, (g.replay script).tensors[i]? = some y ∧ x.Grows y) ∧
      ∀ (i : OperatorId) (op : Operator), g.operators[i]? = some op →
        ∃ op', (g.replay script).operators[i]? = some op' ∧ op.Grows op' := by
  obtain ⟨hreach, hgrow⟩ := hg.grows_replay script
  exact ⟨fun _ _ => hgrow.symbols.value?, hreach.nonneg, fun _ _ => hgrow.symbols.evaluates,
    fun _ => hgrow.symbols.unsupported, hgrow.tensors, hgrow.operators⟩

/-- A graph that scales a batch of three samples of unknown size. -/
def openScaling : Graph :=
  empty.replay [.addSymbol "N", .addSymbol "C", .bind 0 3,
    .addTensor .input "x" .nc [.symbol 0, .symbol 1], .addTensor .weight "s" .c [.value 4],
    .addOperator none (.axiswiseScale .c), .apply 0 [0, 1]]

/-- Steps that follow: the first three are refused, the others settle the shapes. -/
def openScalingLater : List Edit :=
  [.bind 0 5, .bind 1 (-4), .changeOrder 0 .nc, .bind 1 4, .markOutput 2]

/-- The batch keeps its value, a division by zero stays an error, and the result stays where it is
with its producer and its shape. -/
theorem replay_keeps_openScaling :
    openScaling.Reachable ∧
      (openScaling.replay openScalingLater).symbols.value? 0 = some 3 ∧
      (openScaling.replay openScalingLater).symbols.Unsupported
        (.binary .add (.symbol 1) (.binary .floorDiv (.symbol 0) (.value 0))) ∧
      ∃ y, (openScaling.replay openScalingLater).tensors[2]? = some y ∧ y.producer = some 0 ∧
        y.shape.extents = [.symbol 0, .symbol 1] := by
  have hreach : openScaling.Reachable := ⟨_, rfl⟩
  obtain ⟨hvalue, -, -, hunsupported, htensors, -⟩ := hreach.replay_keeps openScalingLater
  refine ⟨hreach, hvalue 0 3 (by decide), hunsupported _ ?_, ?_⟩
  · exact SymbolTable.unsupported_binary.2 (.inr (.inl ⟨⟨none, by decide⟩,
      SymbolTable.unsupported_binary.2 (.inr (.inr ⟨3, 0, by decide, by decide, by decide⟩))⟩))
  · obtain ⟨y, hy, hgrow⟩ := htensors 2 _ rfl
    exact ⟨y, hy, hgrow.producer, congrArg Shape.extents (hgrow.shape (.inl nofun))⟩

end Graph

end TensorLowering
