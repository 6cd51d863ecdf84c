import TensorLowering.Proofs.Graph.Narrowing
import TensorLowering.Proofs.Kernel.Source
import TensorLowering.Proofs.Layout.Binding

/-!
# Late numbers and early ones

A kernel that was generated while symbols were unbound reads the missing numbers from the metadata
buffer. Generated again when they are bound, it is the same kernel with the numbers in the place of
the references (`Graph.Reachable.kernel_specialises`). The reason is that a role stands for the same
value both times, up to simplification: a number that was known stays known, and a number that was
missing is the value of the extent in its slot (`BindsAll.specialised`).
-/

namespace TensorLowering

open RoleBinder

variable {t u : SymbolTable}

/-! ## Single values -/

namespace RoleValue

variable {value : RoleValue} {role text text' : String} {n : Int64} {numbers : List Int64}

/-- A number that is known is the number of the specialised value. -/
theorem evaluates_specialised (h : u.Evaluates value.number n) :
    u.Evaluates (value.specialised u).number n := by
  cases value with
  | region a => exact h
  | scalar extent =>
    have hextent : u.Evaluates extent n := h
    rw [specialised, number, hextent.simplify_eq]
    exact SymbolTable.evaluates_value.2 rfl

/-- A specialised value has the same binding, but for the spelling of its number. -/
theorem replaces_binding (h : Replaces numbers text text') :
    Replaces numbers (value.binding role text).expression
      ((value.specialised u).binding role text').expression := by
  cases value with
  | region a =>
    have hopening : Inert ("((float *)(" ++ a.space.pointer ++ " + ").toList := by
      cases a.space <;> decide
    exact ((Replaces.inert hopening).append h).append (.inert (by decide))
  | scalar extent => exact h

theorem binding_specialised (value : RoleValue) (role text text' : String) (u : SymbolTable) :
    ((value.specialised u).binding role text').tensor = (value.binding role text).tensor ∧
      ((value.specialised u).binding role text').space = (value.binding role text).space := by
  cases value <;> exact ⟨rfl, rfl⟩

end RoleValue

/-! ## Values in sequence -/

/-- The binding is the other one, with references replaced in its expression. -/
structure Binding.Replaced (numbers : List Int64) (b b' : Binding) : Prop where
  role : b'.role = b.role
  tensor : b'.tensor = b.tensor
  space : b'.space = b.space
  expression : Replaces numbers b.expression b'.expression

/-- When the numbers of all slots are known, the specialised values are bound without slots, and
their bindings spell the numbers in the place of references. -/
theorem BindsAll.specialised (ht : t.Extends u) {numbers : List Int64}
    {slots slots' : List MetadataSlot} {values : List (String × RoleValue)}
    {bindings : List Binding} (h : BindsAll t slots values bindings slots')
    (hnumbers : List.Forall₂ (fun slot n => u.Evaluates slot.extent n) slots' numbers) :
    ∃ bindings', BindsAll u [] (specialisedRoles u values) bindings' [] ∧
      List.Forall₂ (Binding.Replaced numbers) bindings bindings' := by
  induction h with
  | nil => exact ⟨[], .nil, .nil⟩
  | @cons slots slots₁ slots₂ role text value rest bindings hspells hrest ih =>
    obtain ⟨bindings', hbinds, hreplaced⟩ := ih hnumbers
    -- Either spelling of the number becomes the number.
    have hnumber : ∃ n, u.Evaluates value.number n ∧
        Replaces numbers text (toString n.toInt) := by
      cases hspells with
      | @known n hn => exact ⟨n, ht.evaluates hn, .inert (inert_toString _)⟩
      | slot hn =>
        obtain ⟨later, rfl⟩ := hrest.slots_prefix
        have hslot : (slots ++ [⟨slots.length, role, value.number, t.render value.number⟩] ++
            later)[slots.length]? =
            some ⟨slots.length, role, value.number, t.render value.number⟩ := by simp
        obtain ⟨n, hn, hvalue⟩ := Computation.exists_result hnumbers hslot
        exact ⟨n, hvalue, fun rest => replaceFrom_slotExpression hn⟩
    obtain ⟨n, hn, htext⟩ := hnumber
    refine ⟨_, .cons (.known (RoleValue.evaluates_specialised hn)) hbinds, .cons ?_ hreplaced⟩
    obtain ⟨htensor, hspace⟩ := value.binding_specialised role text (toString n.toInt) u
    exact ⟨by rw [RoleValue.binding_role, RoleValue.binding_role], htensor, hspace,
      RoleValue.replaces_binding htext⟩

/-! ## Kernels after binding -/

theorem Operator.withPending_outputs (op : Operator) (pending : List Obligation) :
    (op.withPending pending).outputs = op.outputs := by
  cases h : op.application <;> simp [withPending, outputs, h]

namespace Graph

variable {g h : Graph} {l : Layout} {k : Kernel} {op : Operator} {i : OperatorId}

/-- The operator at a position, up to its open obligations. -/
theorem Narrows.operator_eq_ok (hn : g.Narrows h) (hop : g.operator i = .ok op) :
    ∃ pending, h.operator i = .ok (op.withPending pending) := by
  rcases hn.operator_cases i with ⟨op', pending, hop', h'⟩ | h'
  · cases hop.symm.trans hop'
    exact ⟨pending, h'⟩
  · exact ⟨op.pending, by rw [h', hop, op.withPending_pending]⟩

/-- Bindings fill in the numbers of a kernel: if they give every slot a number, the kernel after
them has no slots, and is the kernel before them with every reference replaced by the number. -/
theorem Reachable.kernel_specialises (hg : g.Reachable) {bindings : List (SymbolId × Int64)}
    {numbers : List Int64} (hop : g.operator i = .ok op) (hkernel : g.kernel l op = .ok k)
    (hbind : g.bindAll bindings = .ok h)
    (hnumbers : List.Forall₂ (fun slot n => h.symbols.Evaluates slot.extent n) k.slots numbers) :
    ∃ op' k', h.operator i = .ok op' ∧ h.kernel l op' = .ok k' ∧ k'.entry = k.entry ∧
      k'.bindings.map (fun b => (b.role, b.tensor, b.space)) =
        k.bindings.map (fun b => (b.role, b.tensor, b.space)) ∧
      k'.slots = [] ∧ k'.source = Kernel.replaceReferences numbers k.source := by
  obtain ⟨hn, -⟩ := narrows_of_bindAll hg hbind
  obtain ⟨pending, hop'⟩ := hn.operator_eq_ok hop
  obtain ⟨d, p, r, x, s, y, values, hd, hp, hr, hx, hs, hy, hcheck, hvalues, hk⟩ :=
    kernel_eq_ok.1 hkernel
  have hkeys := OperatorKind.roles_keys hvalues
  have hnodup : (values.map Prod.fst).Nodup := hkeys ▸ op.kind.nodup_roles
  obtain ⟨bound, slots, hbinds, rfl⟩ := (Routine.instantiate_eq_ok hkeys hnodup).1 hk
  obtain ⟨bound', hbinds', hreplaced⟩ := hbinds.specialised hn.symbols hnumbers
  have hk' := (Routine.instantiate_eq_ok (r := op.kind.routine) (t := h.symbols)
    (n := .ofOperator op) (k := ⟨(KernelName.ofOperator op).text,
      op.kind.routine.source (KernelName.ofOperator op).text (bound'.map Binding.expression),
      bound', []⟩) (by rw [specialisedRoles_keys, hkeys]) (by rwa [specialisedRoles_keys])).2
    ⟨bound', [], hbinds', rfl⟩
  have htensor : ∀ {id z}, g.tensor id = .ok z → h.tensor id = .ok z := by
    intro id z hz
    rwa [tensor, hn.tensors]
  have hinput : ∀ name, (op.withPending pending).input name = op.input name := by
    intro name
    rw [Operator.input, Operator.withPending_inputs]
    rfl
  have houtput : (op.withPending pending).output op.kind.resultSlot = .ok r := by
    rw [Operator.output, Operator.withPending_outputs]
    exact hr
  refine ⟨_, _, hop', kernel_eq_ok.2 ⟨d, p, r, x, s, y, specialisedRoles h.symbols values,
    (hinput _).trans hd, (hinput _).trans hp, houtput, htensor hx, htensor hs, htensor hy, hcheck,
    OperatorKind.roles_specialised hn.symbols hvalues, hk'⟩, rfl, ?_, rfl, ?_⟩
  · refine (Computation.map_eq_map hreplaced fun b b' hb => ?_).symm
    rw [hb.role, hb.tensor, hb.space]
  · have hexpressions : List.Forall₂ (Replaces numbers) (bound.map Binding.expression)
        (bound'.map Binding.expression) := by
      rw [List.forall₂_map_left_iff, List.forall₂_map_right_iff]
      exact hreplaced.imp fun _ _ hb => hb.expression
    exact (Routine.replaces_source op.kind.isPlain_routine (inert_ofOperator op)
      hexpressions).eq.symm

/-- The kernel of `batchScaling` reads the offset of its result and the number of elements from the
metadata buffer. With a batch of two these are 32 and 8. -/
theorem kernel_specialises_batchScaling :
    ∃ op k h op' k', batchScaling.operator 0 = .ok op ∧
      batchScaling.kernel batchScalingLayout op = .ok k ∧ k.slots.length = 2 ∧
      batchScaling.bindAll [(0, 2)] = .ok h ∧ h.operator 0 = .ok op' ∧
      h.kernel batchScalingLayout op' = .ok k' ∧ k'.slots = [] ∧
      k'.source = Kernel.replaceReferences [32, 8] k.source := by
  obtain ⟨op, hop⟩ : ∃ op, batchScaling.operator 0 = .ok op := ⟨_, rfl⟩
  obtain ⟨h, hbind⟩ : ∃ h, batchScaling.bindAll [(0, 2)] = .ok h := ⟨_, rfl⟩
  have hslots : (batchScaling.operator 0 >>= batchScaling.kernel batchScalingLayout).map
      (fun k => k.slots.map MetadataSlot.extent) = .ok [batchBytes, .symbol 0 * .value 4] := by
    decide +kernel
  rw [hop, Computation.ok_bind] at hslots
  obtain ⟨k, hk, hextents⟩ := Computation.map_eq_ok.1 hslots
  have hvalues : List.Forall₂ h.symbols.Evaluates [batchBytes, .symbol 0 * .value 4] [32, 8] := by
    cases hbind
    exact .cons (by decide) (.cons (by decide) .nil)
  rw [← hextents, List.forall₂_map_left_iff] at hvalues
  obtain ⟨op', k', hop', hk', -, -, hslots', hsource⟩ :=
    Reachable.kernel_specialises ⟨_, rfl⟩ hop hk hbind hvalues
  exact ⟨op, k, h, op', k', hop, hk, by simpa using congrArg List.length hextents, hbind, hop', hk',
    hslots', hsource⟩

end Graph

end TensorLowering
