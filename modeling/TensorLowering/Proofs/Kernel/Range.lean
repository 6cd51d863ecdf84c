import Mathlib.Algebra.Order.BigOperators.Group.List
import TensorLowering.Proofs.Kernel.Emission
import TensorLowering.Proofs.Kernel.Literals
import TensorLowering.Proofs.Layout.Binding
import TensorLowering.Proofs.Rule

/-!
# The range of literals

Kernels declare their integers as `int`, and the literals they start from are words. A literal is
the exact number that its integer stands for, as far as that is known: a count, an extent or a
stride of a tensor of the operator, or a parameter of the operator (`OperatorKind.quantities`,
`Graph.declares_iff`). Nothing checks that an `int` can hold it. So the literals of a program are in
range exactly when these numbers are, and they are if no tensor is too large as far as its extents
are known (`Graph.Reachable.literals_exact`).
-/

namespace TensorLowering

/-- An `int` of the emitted language can hold the number. -/
def FitsInt (n : Int) : Prop := -2 ^ 31 ≤ n ∧ n < 2 ^ 31

instance (n : Int) : Decidable (FitsInt n) := inferInstanceAs (Decidable (_ ∧ _))

/-! ## Magnitudes -/

namespace Extent

variable {a b : Extent}

/-- What an extent contributes to a product at most: its magnitude if it is a literal, and one if
that is zero or if it is no literal. -/
def magnitude : Extent → Nat
  | value n => max 1 n.toInt.natAbs
  | _ => 1

theorem one_le_magnitude (a : Extent) : 1 ≤ a.magnitude := by
  cases a with
  | value n => exact Nat.le_max_left _ _
  | symbol k => exact Nat.le_refl 1
  | binary op a b => exact Nat.le_refl 1

/-- A product of two extents has no more than the product of their magnitudes. -/
theorem magnitude_mul_le (a b : Extent) : (a * b).magnitude ≤ a.magnitude * b.magnitude := by
  have ha := a.one_le_magnitude
  have hb := b.one_le_magnitude
  have hpos : 1 ≤ a.magnitude * b.magnitude := Nat.mul_pos ha hb
  change (combine .mul a b).magnitude ≤ _
  rcases combine_cases .mul a b with ⟨x, y, z, rfl, rfl, hz, h⟩ | h | h
  · rw [BinaryOp.eval_eq_some_iff] at hz
    have hz : z.toInt.natAbs = x.toInt.natAbs * y.toInt.natAbs := by
      rw [← Option.some.inj hz, Int.natAbs_mul]
    rw [h]
    refine Nat.max_le.2 ⟨hpos, hz ▸ ?_⟩
    exact Nat.mul_le_mul (Nat.le_max_right _ _) (Nat.le_max_right _ _)
  · generalize combine .mul a b = c at h
    cases h with
    | oneMul => exact Nat.le_mul_of_pos_left _ ha
    | mulOne => exact Nat.le_mul_of_pos_right _ hb
    | zeroMul => exact hpos
    | mulZero => exact hpos
  · rw [h]
    exact hpos

/-- A product has no more than the product of the magnitudes of its factors. -/
theorem magnitude_product_le (factors : List Extent) :
    (product factors).magnitude ≤ (factors.map magnitude).prod := by
  have hfold : ∀ acc : Extent, (factors.foldl (· * ·) acc).magnitude ≤
      acc.magnitude * (factors.map magnitude).prod := by
    induction factors with
    | nil => exact fun acc => Nat.le_of_eq (Nat.mul_one _).symm
    | cons a rest ih =>
      intro acc
      calc (rest.foldl (· * ·) (acc * a)).magnitude
          ≤ (acc * a).magnitude * (rest.map magnitude).prod := ih (acc * a)
        _ ≤ acc.magnitude * a.magnitude * (rest.map magnitude).prod :=
          Nat.mul_le_mul_right _ (magnitude_mul_le acc a)
        _ = acc.magnitude * ((a :: rest).map magnitude).prod := by
          rw [List.map_cons, List.prod_cons, Nat.mul_assoc]
  exact (hfold (value 1)).trans (Nat.le_of_eq (Nat.one_mul _))

end Extent

namespace Shape

variable {t : SymbolTable} {s : Shape} {e : Extent} {axis : Axis}

/-- The number of elements as far as the extents are known: an extent that is not known, or is zero,
counts as one. -/
def knownSize (t : SymbolTable) (s : Shape) : Nat :=
  (s.extents.map fun e => (t.simplify e).magnitude).prod

/-- The quantity is the product of some extents of the shape. -/
def Measures (s : Shape) (e : Extent) : Prop :=
  ∃ factors : List Extent, factors.Sublist s.extents ∧ e = Extent.product factors

theorem measures_count (s : Shape) : s.Measures s.count := ⟨_, .refl _, rfl⟩

theorem measures_extent (h : s.extent axis = .ok e) : s.Measures e := by
  obtain ⟨i, -, he⟩ := extent_eq_ok.1 h
  exact ⟨[e], List.singleton_sublist.2 (List.mem_of_getElem? he),
    (Extent.Law.oneMul e).combine_eq.symm⟩

theorem measures_stride (h : s.stride axis = .ok e) : s.Measures e := by
  obtain ⟨i, -, rfl⟩ := stride_eq_ok h
  exact ⟨_, List.drop_sublist _ _, rfl⟩

/-- A quantity of a shape that is known is no larger than what is known of the shape. -/
theorem Measures.natAbs_le {n : Int64} (h : s.Measures e) (hn : t.simplify e = .value n) :
    n.toInt.natAbs ≤ s.knownSize t := by
  obtain ⟨factors, hsub, rfl⟩ := h
  calc n.toInt.natAbs
      ≤ (t.simplify (Extent.product factors)).magnitude := by
        rw [hn]
        exact Nat.le_max_right _ _
    _ ≤ ((factors.map t.simplify).map Extent.magnitude).prod := by
        rw [SymbolTable.simplify_product]
        exact Extent.magnitude_product_le _
    _ ≤ s.knownSize t := by
        rw [List.map_map, knownSize]
        refine (hsub.map _).prod_le_prod' fun m hm => ?_
        obtain ⟨a, -, rfl⟩ := List.mem_map.1 hm
        exact Extent.one_le_magnitude _

end Shape

/-! ## What the integers of a kernel stand for -/

/-- The parameters of a deconvolution, by the names of the integers. -/
def Deconvolution.window (p : Deconvolution) : List (String × UInt64) :=
  [("KH", p.ksize.h), ("KW", p.ksize.w), ("SH", p.stride.h), ("SW", p.stride.w),
    ("PH", p.padding.h), ("PW", p.padding.w)]

/-- What the integers of the kernel stand for, for the operands and the result of the operator. -/
def OperatorKind.quantities (kind : OperatorKind) (x s y : Tensor) :
    List (String × Lowering Extent) :=
  match kind with
  | axiswiseScale _ => [("N", .ok y.shape.count), ("C", y.shape.extent .c)]
  | deconvolution p =>
    [("N", Axis.n), ("C1", .c), ("H1", .h), ("W1", .w)].map
        (fun name => (name.1, x.shape.extent name.2)) ++
      [("C2", Axis.c), ("H2", .h), ("W2", .w)].map (fun name => (name.1, y.shape.extent name.2)) ++
      p.window.map (fun name => (name.1, .ok (.ofWord name.2))) ++
      Deconvolution.strideAxes.map (fun axis => ("X" ++ "S" ++ axis.text, x.shape.stride axis)) ++
      Deconvolution.strideAxes.map (fun axis => ("W" ++ "S" ++ axis.text, s.shape.stride axis)) ++
      Deconvolution.strideAxes.map (fun axis => ("Y" ++ "S" ++ axis.text, y.shape.stride axis))

namespace OperatorKind

variable {kind : OperatorKind} {t : SymbolTable} {l : Layout} {x s y : Tensor}
  {values : List (String × RoleValue)} {e : Extent}

/-- Every integer stands for something. -/
theorem quantities_keys (kind : OperatorKind) (x s y : Tensor) :
    (kind.quantities x s y).map Prod.fst =
      (kind.routine.parameters.filter (·.kind = .integer)).map (·.name) := by
  cases kind <;> rfl

/-- The roles of integers stand for simplified quantities. -/
theorem roles_quantities (h : kind.roles t l x s y = .ok values) :
    ∃ scalars, scalars ⊆ values ∧
      ScalarRoles t (fun q => kind.routine.role q.1) Prod.snd (kind.quantities x s y) scalars := by
  cases kind with
  | axiswiseScale axis =>
    obtain ⟨_, _, _, channels, -, -, -, hc, rfl⟩ := AxiswiseScale.roles_eq_ok.1 h
    refine ⟨_, List.subset_append_right [_, _, _] _, ?_⟩
    exact .cons ⟨_, rfl, rfl⟩ (.cons ⟨channels, hc, rfl⟩ .nil)
  | deconvolution p =>
    obtain ⟨_, _, _, i, o, xs, ss, ys, -, -, -, hi, ho, hxs, hss, hys, rfl⟩ :=
      Deconvolution.roles_eq_ok.1 h
    rw [Deconvolution.extentRoles_eq_ok] at hi ho
    rw [Deconvolution.strideRoles_eq_ok] at hxs hss hys
    have hwindow : ScalarRoles t (fun name => Deconvolution.routine.role name.1)
        (fun name => .ok (.ofWord name.2)) p.window p.windowRoles := by
      have hroles : p.windowRoles = p.window.map fun name =>
        (Deconvolution.routine.role name.1, .scalar (.ofWord name.2)) := rfl
      rw [hroles, ScalarRoles, List.forall₂_map_right_iff, List.forall₂_same]
      exact fun name _ => ⟨_, rfl, rfl⟩
    refine ⟨i ++ o ++ p.windowRoles ++ xs ++ ss ++ ys, ?_, ?_⟩
    · simp only [List.append_assoc]
      exact List.subset_append_right _ _
    · simp only [ScalarRoles, quantities]
      refine List.rel_append (List.rel_append (List.rel_append (List.rel_append
        (List.rel_append ?_ ?_) ?_) ?_) ?_) ?_
      all_goals rw [List.forall₂_map_left_iff]
      · exact hi
      · exact ho
      · exact hwindow
      · exact hxs
      · exact hss
      · exact hys

/-- Every quantity is the product of some extents of one of the tensors, or a parameter of the
operator. -/
theorem measures_of_mem_quantities {name : String} (h : (name, .ok e) ∈ kind.quantities x s y) :
    (x.shape.Measures e ∨ s.shape.Measures e ∨ y.shape.Measures e) ∨
      ∃ p, kind = deconvolution p ∧ ∃ entry ∈ p.window, e = .ofWord entry.2 := by
  cases kind with
  | axiswiseScale axis =>
    simp only [quantities, List.mem_cons, Prod.mk.injEq, List.not_mem_nil, or_false] at h
    rcases h with ⟨-, h⟩ | ⟨-, h⟩
    · cases h
      exact .inl (.inr (.inr y.shape.measures_count))
    · exact .inl (.inr (.inr (Shape.measures_extent h.symm)))
  | deconvolution p =>
    simp only [quantities, List.mem_append, List.mem_map, Prod.mk.injEq] at h
    rcases h with ((((⟨_, -, -, h⟩ | ⟨_, -, -, h⟩) | ⟨entry, hentry, -, h⟩) | ⟨_, -, -, h⟩) |
      ⟨_, -, -, h⟩) | ⟨_, -, -, h⟩
    · exact .inl (.inl (Shape.measures_extent h))
    · exact .inl (.inr (.inr (Shape.measures_extent h)))
    · cases h
      exact .inr ⟨p, rfl, entry, hentry, rfl⟩
    · exact .inl (.inl (Shape.measures_stride h))
    · exact .inl (.inr (.inl (Shape.measures_stride h)))
    · exact .inl (.inr (.inr (Shape.measures_stride h)))

end OperatorKind

/-! ## Literals -/

/-- What simplifies to something with a value has simplified to it. -/
theorem SymbolTable.evaluates_simplify_iff {t : SymbolTable} {e : Extent} {n : Int64} :
    t.Evaluates (t.simplify e) n ↔ t.simplify e = .value n := by
  constructor
  · intro h
    rw [← (Extends.refl t).simplify_simplify e]
    exact h.simplify_eq
  · intro h
    rw [h]
    exact evaluates_value.2 rfl

/-- An extent is bound to a literal exactly if it has a value, and then to that of the value. -/
theorem BindsAll.spellsNumber_iff {t : SymbolTable} {slots slots' : List MetadataSlot}
    {values : List (String × RoleValue)} {bindings : List Binding} {role : String} {e : Extent}
    {n : Int} (h : BindsAll t slots values bindings slots') (hnodup : (values.map Prod.fst).Nodup)
    (hvalue : (role, .scalar e) ∈ values) :
    SpellsNumber bindings role n ↔ ∃ m, t.Evaluates e m ∧ m.toInt = n := by
  obtain ⟨text, _, _, hspells, hmem⟩ := h.exists_spells hvalue
  have htext : SpellsNumber bindings role n ↔ text = toString n := by
    constructor
    · rintro ⟨b, hb, hrole, hexpression⟩
      cases List.inj_on_of_nodup_map (h.keys ▸ hnodup) hb hmem hrole
      exact hexpression
    · intro htext
      exact ⟨_, hmem, rfl, htext⟩
  rw [htext]
  cases hspells with
  | @known m hm =>
    constructor
    · intro heq
      exact ⟨m, hm, Int.repr_injective heq⟩
    · rintro ⟨m', hm', rfl⟩
      rw [hm.unique hm']
  | slot hnone =>
    constructor
    · intro heq
      have hletter : 'm' ∈ (toString n).toList := by
        rw [← heq, toList_slotExpression]
        exact List.mem_append_left _ (List.mem_append_left _ (by decide))
      exact absurd (isDigit_or_of_mem_toString hletter) (by decide)
    · rintro ⟨m, hm, -⟩
      exact absurd (hnone.symm.trans hm) (by simp)

/-- The kernel declares an integer that starts from the literal of the number. -/
def Kernel.Declares (k : Kernel) (r : Routine) (name : String) (n : Int) : Prop :=
  ⟨.integer, name⟩ ∈ r.parameters ∧ SpellsNumber k.bindings (r.role name) n

namespace Graph

variable {g : Graph} {op : Operator} {name : String} {n : Int}

/-- What an integer of the operator's kernel stands for is known, and is the number. -/
def Knows (g : Graph) (op : Operator) (name : String) (n : Int) : Prop :=
  ∃ a x s y e m, op.application = some a ∧ g.tensor a.data = .ok x ∧
    g.tensor a.parameter = .ok s ∧ g.tensor a.result = .ok y ∧
    (name, .ok e) ∈ op.kind.quantities x s y ∧ g.symbols.simplify e = .value m ∧ m.toInt = n

/-- An integer of a kernel starts from a literal exactly if what it stands for is known, and then
from its exact number. -/
theorem declares_iff {l : Layout} {k : Kernel} (h : g.kernel l op = .ok k) :
    k.Declares op.kind.routine name n ↔ g.Knows op name n := by
  obtain ⟨a, x, s, y, values, hk⟩ := exists_emitsFrom h
  obtain ⟨scalars, hsub, hscalars⟩ := OperatorKind.roles_quantities hk.roles
  have hnodup : (values.map Prod.fst).Nodup :=
    OperatorKind.roles_keys hk.roles ▸ op.kind.nodup_roles
  -- Whatever a quantity is, its role is bound to its simplification.
  have hspells : ∀ {q}, q ∈ op.kind.quantities x s y → ∃ e, q.2 = .ok e ∧
      (SpellsNumber k.bindings (op.kind.routine.role q.1) n ↔
        ∃ m, g.symbols.simplify e = .value m ∧ m.toInt = n) := by
    intro q hq
    obtain ⟨_, hentry, e, he, rfl⟩ := Computation.exists_result_of_mem hscalars hq
    refine ⟨e, he, ?_⟩
    simp only [hk.binds.spellsNumber_iff hnodup (hsub hentry), SymbolTable.evaluates_simplify_iff]
  have hname : ⟨.integer, name⟩ ∈ op.kind.routine.parameters ↔
      ∃ q ∈ op.kind.quantities x s y, q.1 = name := by
    have hkeys := congrArg (name ∈ ·) (op.kind.quantities_keys x s y)
    simp only [List.mem_map, List.mem_filter, decide_eq_true_eq, eq_iff_iff] at hkeys
    rw [hkeys]
    constructor
    · intro hp
      exact ⟨_, ⟨hp, rfl⟩, rfl⟩
    · rintro ⟨⟨kind, _⟩, ⟨hp, rfl⟩, rfl⟩
      exact hp
  constructor
  · rintro ⟨hp, hliteral⟩
    obtain ⟨⟨_, _⟩, hq, rfl⟩ := hname.1 hp
    obtain ⟨e, rfl, hiff⟩ := hspells hq
    obtain ⟨m, hm, hn⟩ := hiff.1 hliteral
    exact ⟨a, x, s, y, e, m, hk.applied, hk.data, hk.parameter, hk.result, hq, hm, hn⟩
  · rintro ⟨a', x', s', y', e, m, ha, hx, hs, hy, hq, hm, hn⟩
    cases hk.applied.symm.trans ha
    cases hk.data.symm.trans hx
    cases hk.parameter.symm.trans hs
    cases hk.result.symm.trans hy
    obtain ⟨e', he', hiff⟩ := hspells hq
    cases he'
    exact ⟨hname.2 ⟨_, hq, rfl⟩, hiff.2 ⟨m, hm, hn⟩⟩

/-- Nothing is known of an operator that is out of range, if its tensors are small as far as they
are known, and so are its parameters. -/
theorem Knows.fitsInt (hsizes : ∀ x ∈ g.tensors, x.shape.knownSize g.symbols < 2 ^ 31)
    (hwindow : ∀ p, op.kind = .deconvolution p → ∀ entry ∈ p.window, entry.2.toNat < 2 ^ 31)
    (h : g.Knows op name n) : FitsInt n := by
  obtain ⟨a, x, s, y, e, m, -, hx, hs, hy, hq, hm, rfl⟩ := h
  have hmeasures : ∀ {z : Tensor} {i}, g.tensor i = .ok z → z.shape.Measures e →
      FitsInt m.toInt := by
    intro z i hz he
    have hle := he.natAbs_le hm
    have hlt := hsizes z (List.mem_of_getElem? (tensor_eq_ok.1 hz))
    exact ⟨by omega, by omega⟩
  rcases OperatorKind.measures_of_mem_quantities hq with (h | h | h) | ⟨p, hp, entry, hentry, rfl⟩
  · exact hmeasures hx h
  · exact hmeasures hs h
  · exact hmeasures hy h
  · have hlt := hwindow p hp entry hentry
    cases hm
    rw [toInt_toInt64_of_lt (by omega)]
    exact ⟨by omega, by omega⟩

end Graph

/-- Every literal from which an integer of a kernel starts is in range. -/
def Program.LiteralsFit (p : Program) (g : Graph) : Prop :=
  ∀ op ∈ g.operators, ∀ k ∈ p.kernels, g.kernel p.layout op = .ok k →
    ∀ name n, k.Declares op.kind.routine name n → FitsInt n

namespace Graph

variable {g : Graph}

/-- The literals of a program are exact. Every operator has a kernel, whose integers start from
literals just where what they stand for is known, and from its number. So literals are in range
exactly if all these numbers are, and they are if every tensor has fewer than two to the 31
elements, as far as its extents are known, and every parameter of an operator is below that. -/
theorem Reachable.literals_exact (hg : g.Reachable) {config : Config} {p : Program}
    (h : g.lower config = .ok p) :
    (∀ op ∈ g.operators, ∃ k ∈ p.kernels, g.kernel p.layout op = .ok k ∧
      ∀ name n, k.Declares op.kind.routine name n ↔ g.Knows op name n) ∧
    (p.LiteralsFit g ↔ ∀ op ∈ g.operators, ∀ name n, g.Knows op name n → FitsInt n) ∧
    ((∀ x ∈ g.tensors, x.shape.knownSize g.symbols < 2 ^ 31) →
      (∀ op ∈ g.operators, ∀ d, op.kind = .deconvolution d →
        ∀ entry ∈ d.window, entry.2.toNat < 2 ^ 31) →
      p.LiteralsFit g) := by
  refine ⟨fun op hop => ?_, ⟨fun hfit op hop name n hn => ?_, fun hfit op hop k _ hk name n hn => ?_⟩,
    fun hsizes hwindow op hop k _ hk name n hn => ?_⟩
  · obtain ⟨k, hk, hkernel⟩ := hg.exists_kernel h hop
    exact ⟨k, hk, hkernel, fun name n => declares_iff hkernel⟩
  · obtain ⟨k, hk, hkernel⟩ := hg.exists_kernel h hop
    exact hfit op hop k hk hkernel name n ((declares_iff hkernel).2 hn)
  · exact hfit op hop name n ((declares_iff hk).1 hn)
  · exact ((declares_iff hk).1 hn).fitsInt hsizes (hwindow op hop)

/-- In `batchScaling` the number of channels is the literal 4. -/
theorem literals_exact_batchScaling :
    ∃ p, batchScaling.lower .standard = .ok p ∧ p.LiteralsFit batchScaling ∧
      ∃ k ∈ p.kernels, k.Declares AxiswiseScale.routine "C" 4 := by
  have hlower : (batchScaling.lower .standard).map (fun p => p.kernels.length) = .ok 1 := by
    decide +kernel
  obtain ⟨p, hp, -⟩ := Computation.map_eq_ok.1 hlower
  obtain ⟨hexact, -, hfit⟩ := Reachable.literals_exact (g := batchScaling) ⟨_, rfl⟩ hp
  have hkinds : ∀ op ∈ batchScaling.operators, op.kind = .axiswiseScale .c := by decide
  refine ⟨p, hp, hfit (by decide) (fun op hop d hd => ?_), ?_⟩
  · rw [hkinds op hop] at hd
    cases hd
  · obtain ⟨k, hk, -, hdeclares⟩ := hexact (batchScaling.operators.get ⟨0, by decide⟩) (by decide)
    refine ⟨k, hk, (hdeclares "C" 4).2 ⟨_, _, _, _, .value 4, 4, rfl, rfl, rfl, rfl, ?_, rfl, rfl⟩⟩
    exact .tail _ (.head _)

/-- A row of three thousand million channels, scaled. -/
def wideRow : Graph :=
  empty.replay [.addTensor .input "x" .nc [.value 1, .value 3000000000],
    .addTensor .weight "s" .c [.value 3000000000], .addOperator none (.axiswiseScale .c),
    .apply 0 [0, 1], .markOutput 2]

/-- The number of channels is a word and becomes a literal, but no `int` can hold it. -/
theorem literals_wideRow :
    wideRow.Reachable ∧ ∃ p, wideRow.lower .standard = .ok p ∧ ¬ p.LiteralsFit wideRow := by
  have hreachable : wideRow.Reachable := ⟨_, rfl⟩
  have hlower : (wideRow.lower .standard).map (fun p => p.kernels.length) = .ok 1 := by
    decide +kernel
  obtain ⟨p, hp, -⟩ := Computation.map_eq_ok.1 hlower
  have hop : wideRow.operators.get ⟨0, by decide⟩ ∈ wideRow.operators := List.get_mem _ _
  obtain ⟨k, hk, hkernel⟩ := hreachable.exists_kernel hp hop
  have hknows : wideRow.Knows (wideRow.operators.get ⟨0, by decide⟩) "C" 3000000000 :=
    ⟨_, _, _, _, .value 3000000000, 3000000000, rfl, rfl, rfl, rfl, .tail _ (.head _), rfl, rfl⟩
  refine ⟨hreachable, p, hp, fun hfit => ?_⟩
  have hfits := hfit _ hop k hk hkernel "C" 3000000000 ((declares_iff hkernel).2 hknows)
  exact absurd hfits (by decide)

end Graph

end TensorLowering
