import TensorLowering.Kernel.Dispatch
import TensorLowering.Proofs.Graph.Step
import TensorLowering.Proofs.Kernel.Routine
import TensorLowering.Proofs.Symbol.Extension

/-!
# The roles of operators

Every kind of operator has a routine, roles for its parameters and conditions of its own
(`OperatorKind.routine`, `OperatorKind.roles`, `OperatorKind.checkKernel`). A kernel is the routine
instantiated with the roles (`Graph.kernel_eq_ok`), which come in the order of its parameters
(`OperatorKind.roles_keys`). Under a table that knows more, roles stand for the same values with
their extents simplified once more (`OperatorKind.roles_specialised`).
-/

namespace TensorLowering

variable {t u : SymbolTable} {l : Layout} {x s y : Tensor} {values : List (String × RoleValue)}

/-- The value under a table: its extent simplified, if it is one. -/
def RoleValue.specialised (t : SymbolTable) : RoleValue → RoleValue
  | .region a => .region a
  | .scalar extent => .scalar (t.simplify extent)

/-- Roles with their values under a table. -/
def specialisedRoles (t : SymbolTable) (values : List (String × RoleValue)) :
    List (String × RoleValue) :=
  values.map fun entry => (entry.1, entry.2.specialised t)

theorem specialisedRoles_keys (t : SymbolTable) (values : List (String × RoleValue)) :
    (specialisedRoles t values).map Prod.fst = values.map Prod.fst := by
  rw [specialisedRoles, List.map_map]
  rfl

/-! ## Scaling -/

namespace AxiswiseScale

theorem roles_eq_ok :
    roles t l x s y = .ok values ↔
      ∃ xRegion yRegion sRegion channels, l.get x.id = .ok xRegion ∧ l.get y.id = .ok yRegion ∧
        l.get s.id = .ok sRegion ∧ y.shape.extent .c = .ok channels ∧
        [(routine.role "X", .region xRegion), (routine.role "Y", .region yRegion),
          (routine.role "S", .region sRegion),
          (routine.role "N", .scalar (t.simplify y.shape.count)),
          (routine.role "C", .scalar (t.simplify channels))] = values := by
  simp only [roles, Computation.bind_eq_ok, Computation.pure_eq_ok]
  constructor
  · rintro ⟨xRegion, hx, yRegion, hy, sRegion, hs, channels, hc, h⟩
    exact ⟨xRegion, yRegion, sRegion, channels, hx, hy, hs, hc, h⟩
  · rintro ⟨xRegion, yRegion, sRegion, channels, hx, hy, hs, hc, h⟩
    exact ⟨xRegion, hx, yRegion, hy, sRegion, hs, channels, hc, h⟩

end AxiswiseScale

/-! ## Deconvolution -/

section
variable {α : Type} {role : α → String} {extent : α → Lowering Extent} {names : List α}

/-- A role for every element, which stands for a simplified extent. -/
def ScalarRoles (t : SymbolTable) (role : α → String) (extent : α → Lowering Extent)
    (names : List α) (values : List (String × RoleValue)) : Prop :=
  List.Forall₂ (fun name entry => ∃ a, extent name = .ok a ∧
    (role name, RoleValue.scalar (t.simplify a)) = entry) names values

theorem scalarRoles_iff :
    names.mapM (fun name => do
        let a ← extent name
        pure (role name, RoleValue.scalar (t.simplify a))) = .ok values ↔
      ScalarRoles t role extent names values := by
  rw [Computation.mapM_eq_ok]
  simp only [Computation.bind_eq_ok, Computation.pure_eq_ok]
  rfl

theorem ScalarRoles.keys (h : ScalarRoles t role extent names values) :
    values.map Prod.fst = names.map role := by
  refine (Computation.map_eq_map h ?_).symm
  rintro name entry ⟨a, -, rfl⟩
  rfl

theorem ScalarRoles.specialised (ht : t.Extends u) (h : ScalarRoles t role extent names values) :
    ScalarRoles u role extent names (specialisedRoles u values) := by
  rw [specialisedRoles, ScalarRoles, List.forall₂_map_right_iff]
  refine h.imp ?_
  rintro name entry ⟨a, ha, rfl⟩
  exact ⟨a, ha, by rw [RoleValue.specialised, ht.simplify_simplify]⟩

end

namespace Deconvolution

variable {p : Deconvolution}

/-- The axes in the order in which strides are registered. -/
def strideAxes : List Axis := [.n, .c, .h, .w]

theorem roles_eq_ok :
    p.roles t l x s y = .ok values ↔
      ∃ xRegion sRegion yRegion inputs outputs xStrides sStrides yStrides,
        l.get x.id = .ok xRegion ∧ l.get s.id = .ok sRegion ∧ l.get y.id = .ok yRegion ∧
        extentRoles t x [("N", .n), ("C1", .c), ("H1", .h), ("W1", .w)] = .ok inputs ∧
        extentRoles t y [("C2", .c), ("H2", .h), ("W2", .w)] = .ok outputs ∧
        strideRoles t "X" x = .ok xStrides ∧ strideRoles t "W" s = .ok sStrides ∧
        strideRoles t "Y" y = .ok yStrides ∧
        [(routine.role "X", .region xRegion), (routine.role "W", .region sRegion),
          (routine.role "Y", .region yRegion)] ++ inputs ++ outputs ++ p.windowRoles ++ xStrides ++
          sStrides ++ yStrides = values := by
  simp only [roles, Computation.bind_eq_ok, Computation.pure_eq_ok]
  constructor
  · rintro ⟨a, ha, b, hb, c, hc, i, hi, o, ho, xs, hxs, ss, hss, ys, hys, h⟩
    exact ⟨a, b, c, i, o, xs, ss, ys, ha, hb, hc, hi, ho, hxs, hss, hys, h⟩
  · rintro ⟨a, b, c, i, o, xs, ss, ys, ha, hb, hc, hi, ho, hxs, hss, hys, h⟩
    exact ⟨a, ha, b, hb, c, hc, i, hi, o, ho, xs, hxs, ss, hss, ys, hys, h⟩

theorem extentRoles_eq_ok {names : List (String × Axis)} :
    extentRoles t x names = .ok values ↔
      ScalarRoles t (fun name => routine.role name.1) (fun name => x.shape.extent name.2) names
        values :=
  scalarRoles_iff

theorem strideRoles_eq_ok {array : String} :
    strideRoles t array x = .ok values ↔
      ScalarRoles t (fun axis => routine.role (array ++ "S" ++ axis.text)) x.shape.stride
        [.n, .c, .h, .w] values :=
  scalarRoles_iff

end Deconvolution

/-! ## Kinds of operators -/

namespace OperatorKind

variable {kind : OperatorKind}

/-- The routine of a kind. -/
def routine : OperatorKind → Routine
  | axiswiseScale _ => AxiswiseScale.routine
  | deconvolution _ => Deconvolution.routine

/-- What the roles of an operator's kernel stand for. -/
def roles (kind : OperatorKind) (t : SymbolTable) (l : Layout) (x s y : Tensor) :
    Lowering (List (String × RoleValue)) :=
  match kind with
  | axiswiseScale _ => AxiswiseScale.roles t l x s y
  | deconvolution p => p.roles t l x s y

/-- What an operator must satisfy to have a kernel: scalings are restricted to the channel and to
some orders. -/
def checkKernel (kind : OperatorKind) (op : Operator) (x y : Tensor) : Lowering Unit :=
  match kind with
  | axiswiseScale axis => do
    if axis ≠ .c then
      throw (.unsupported (.operator op.label) (.scaleAxis axis))
    AxiswiseScale.checkOrders op x y
  | deconvolution _ => pure ()

/-- The roles of an operator come in the order of the parameters. -/
theorem roles_keys (h : kind.roles t l x s y = .ok values) :
    values.map Prod.fst = kind.routine.parameters.map (kind.routine.role ·.name) := by
  cases kind with
  | axiswiseScale axis =>
    obtain ⟨_, _, _, _, -, -, -, -, rfl⟩ := AxiswiseScale.roles_eq_ok.1 h
    rfl
  | deconvolution p =>
    obtain ⟨_, _, _, i, o, xs, ss, ys, -, -, -, hi, ho, hxs, hss, hys, rfl⟩ :=
      Deconvolution.roles_eq_ok.1 h
    simp only [List.map_append, (Deconvolution.extentRoles_eq_ok.1 hi).keys,
      (Deconvolution.extentRoles_eq_ok.1 ho).keys, (Deconvolution.strideRoles_eq_ok.1 hxs).keys,
      (Deconvolution.strideRoles_eq_ok.1 hss).keys, (Deconvolution.strideRoles_eq_ok.1 hys).keys]
    rfl

/-- Every parameter of an operator's routine has a role of its own. -/
theorem nodup_roles (kind : OperatorKind) :
    (kind.routine.parameters.map (kind.routine.role ·.name)).Nodup := by
  cases kind <;> rw [routine] <;> decide

/-- Under a table that knows more, roles stand for the same values, specialised. -/
theorem roles_specialised (ht : t.Extends u) (h : kind.roles t l x s y = .ok values) :
    kind.roles u l x s y = .ok (specialisedRoles u values) := by
  cases kind with
  | axiswiseScale axis =>
    obtain ⟨xr, yr, sr, channels, hx, hy, hs, hc, rfl⟩ := AxiswiseScale.roles_eq_ok.1 h
    refine AxiswiseScale.roles_eq_ok.2 ⟨xr, yr, sr, channels, hx, hy, hs, hc, ?_⟩
    simp only [specialisedRoles, List.map_cons, List.map_nil, RoleValue.specialised,
      ht.simplify_simplify]
  | deconvolution p =>
    obtain ⟨xr, sr, yr, i, o, xs, ss, ys, hx, hs, hy, hi, ho, hxs, hss, hys, rfl⟩ :=
      Deconvolution.roles_eq_ok.1 h
    rw [Deconvolution.extentRoles_eq_ok] at hi ho
    rw [Deconvolution.strideRoles_eq_ok] at hxs hss hys
    refine Deconvolution.roles_eq_ok.2 ⟨xr, sr, yr, _, _, _, _, _, hx, hs, hy,
      Deconvolution.extentRoles_eq_ok.2 (hi.specialised ht),
      Deconvolution.extentRoles_eq_ok.2 (ho.specialised ht),
      Deconvolution.strideRoles_eq_ok.2 (hxs.specialised ht),
      Deconvolution.strideRoles_eq_ok.2 (hss.specialised ht),
      Deconvolution.strideRoles_eq_ok.2 (hys.specialised ht), ?_⟩
    simp only [specialisedRoles, List.map_append]
    rfl

end OperatorKind

/-! ## Kernels of operators -/

/-- The kernel of an operator is its routine with the roles of its tensors filled in. -/
theorem Graph.kernel_eq_ok {g : Graph} {op : Operator} {k : Kernel} :
    g.kernel l op = .ok k ↔
      ∃ data parameter result x s y values, op.input op.kind.dataSlot = .ok data ∧
        op.input op.kind.parameterSlot = .ok parameter ∧
        op.output op.kind.resultSlot = .ok result ∧ g.tensor data = .ok x ∧
        g.tensor parameter = .ok s ∧ g.tensor result = .ok y ∧
        op.kind.checkKernel op x y = .ok () ∧ op.kind.roles g.symbols l x s y = .ok values ∧
        Kernel.instantiate op.kind.routine.template (.ofOperator op) (.ofRoles g.symbols values) =
          .ok k := by
  have hkind : ∀ x s y, (match op.kind with
      | .axiswiseScale axis => AxiswiseScale.kernel g l op axis x s y
      | .deconvolution p => p.kernel g l op x s y) = .ok k ↔
      ∃ values, op.kind.checkKernel op x y = .ok () ∧
        op.kind.roles g.symbols l x s y = .ok values ∧
        Kernel.instantiate op.kind.routine.template (.ofOperator op)
          (.ofRoles g.symbols values) = .ok k := by
    intro x s y
    cases op.kind with
    | axiswiseScale axis =>
      simp only [AxiswiseScale.kernel, OperatorKind.checkKernel, Computation.guard_eq_ok,
        Computation.bind_eq_ok]
      constructor
      · rintro ⟨haxis, _, hcheck, values, hvalues, hk⟩
        exact ⟨values, ⟨haxis, hcheck⟩, hvalues, hk⟩
      · rintro ⟨values, ⟨haxis, hcheck⟩, hvalues, hk⟩
        exact ⟨haxis, (), hcheck, values, hvalues, hk⟩
    | deconvolution p =>
      simp only [Deconvolution.kernel, Computation.bind_eq_ok]
      constructor
      · rintro ⟨values, hvalues, hk⟩
        exact ⟨values, rfl, hvalues, hk⟩
      · rintro ⟨values, -, hvalues, hk⟩
        exact ⟨values, hvalues, hk⟩
  simp only [kernel, Computation.bind_eq_ok]
  constructor
  · rintro ⟨d, hd, x, hx, p, hp, s, hs, r, hr, y, hy, hk⟩
    obtain ⟨values, hcheck, hvalues, hk⟩ := (hkind x s y).1 hk
    exact ⟨d, p, r, x, s, y, values, hd, hp, hr, hx, hs, hy, hcheck, hvalues, hk⟩
  · rintro ⟨d, p, r, x, s, y, values, hd, hp, hr, hx, hs, hy, hcheck, hvalues, hk⟩
    exact ⟨d, hd, x, hx, p, hp, s, hs, r, hr, y, hy, (hkind x s y).2 ⟨values, hcheck, hvalues, hk⟩⟩

/-- The kernel is the source of the operator's routine, in which values of the roles of its tensors
are bound from the first slot on. -/
structure Graph.EmitsFrom (g : Graph) (l : Layout) (op : Operator) (k : Kernel) (a : Application)
    (x s y : Tensor) (values : List (String × RoleValue)) : Prop where
  applied : op.application = some a
  data : g.tensor a.data = .ok x
  parameter : g.tensor a.parameter = .ok s
  result : g.tensor a.result = .ok y
  roles : op.kind.roles g.symbols l x s y = .ok values
  binds : BindsAll g.symbols [] values k.bindings k.slots
  entry : k.entry = (KernelName.ofOperator op).text
  source : k.source = op.kind.routine.source k.entry (k.bindings.map Binding.expression)

/-- Every kernel of an operator comes about like this. -/
theorem Graph.exists_emitsFrom {g : Graph} {op : Operator} {k : Kernel}
    (h : g.kernel l op = .ok k) : ∃ a x s y values, g.EmitsFrom l op k a x s y values := by
  obtain ⟨d, p, r, x, s, y, values, hd, hp, hr, hx, hs, hy, -, hvalues, hk⟩ := kernel_eq_ok.1 h
  obtain ⟨a, ha⟩ := Operator.exists_application hd
  cases (Operator.input_dataSlot ha).symm.trans hd
  cases (Operator.input_parameterSlot ha).symm.trans hp
  cases (Operator.output_resultSlot ha).symm.trans hr
  have hkeys := OperatorKind.roles_keys hvalues
  have hnodup : (values.map Prod.fst).Nodup := hkeys ▸ op.kind.nodup_roles
  obtain ⟨bindings, slots, hbinds, rfl⟩ := (Routine.instantiate_eq_ok hkeys hnodup).1 hk
  exact ⟨a, x, s, y, values, ha, hx, hs, hy, hvalues, hbinds, rfl, rfl⟩

end TensorLowering
