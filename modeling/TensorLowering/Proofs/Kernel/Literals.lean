import Mathlib
import TensorLowering.Proofs.Execution.View
import TensorLowering.Proofs.Kernel.Deconvolution
import TensorLowering.Proofs.Kernel.Roles

/-!
# The numbers in a kernel

When every symbol is bound, a kernel loads its integer parameters from literals
(`BindsAll.exists_literal`). These are the extents and strides of the views that an execution takes
of the operator's tensors, and the operator's own parameters (`OperatorKind.numbers`,
`OperatorKind.spells_numbers`). A literal has one reading, so the integers with which a kernel
starts are these numbers (`Kernel.Starts.eq_number`).
-/

namespace TensorLowering

variable {t : SymbolTable} {l : Layout} {x s y : Tensor} {xv sv yv : View}
  {values : List (String × RoleValue)} {bindings : List Binding} {slots slots' : List MetadataSlot}
  {k : Kernel} {r : Routine}

/-! ## Literals -/

/-- Under a complete table every value is bound to a literal, which spells its number. -/
theorem BindsAll.exists_literal (ht : t.Complete) (h : BindsAll t slots values bindings slots')
    {role : String} {value : RoleValue} (hvalue : (role, value) ∈ values) :
    ∃ n, t.Evaluates value.number n ∧ value.binding role (toString n.toInt) ∈ bindings := by
  obtain ⟨text, _, _, hspells, hmem⟩ := h.exists_spells hvalue
  cases hspells with
  | @known n hn => exact ⟨n, hn, hmem⟩
  | slot hn => exact absurd hn (ht.evaluate_ne_none _)

/-- The role is bound to the literal of the number. -/
def SpellsNumber (bindings : List Binding) (role : String) (n : Int) : Prop :=
  ∃ b ∈ bindings, b.role = role ∧ b.expression = toString n

/-- A bound extent is spelled by its value. -/
theorem BindsAll.spellsNumber (ht : t.Complete) (h : BindsAll t slots values bindings slots')
    {role : String} {e : Extent} {n : Int} (hvalue : (role, .scalar e) ∈ values)
    (hn : ∀ m, t.Evaluates e m → m.toInt = n) : SpellsNumber bindings role n := by
  obtain ⟨m, hm, hmem⟩ := h.exists_literal ht hvalue
  exact ⟨_, hmem, RoleValue.binding_role .., by rw [← hn m hm]; rfl⟩

/-- A role is bound to one literal. -/
theorem SpellsNumber.unique {role : String} {m n : Int}
    (hnodup : (bindings.map Binding.role).Nodup) (hm : SpellsNumber bindings role m)
    (hn : SpellsNumber bindings role n) : m = n := by
  obtain ⟨b, hb, rfl, hbm⟩ := hm
  obtain ⟨b', hb', hrole, hbn⟩ := hn
  cases List.inj_on_of_nodup_map hnodup hb' hb hrole
  exact Int.repr_injective (hbm.symm.trans hbn)

/-! ## The integers of a kernel -/

/-- The integers with which a kernel of the routine starts: every integer parameter holds the number
that its role is bound to. -/
def Kernel.Starts (k : Kernel) (r : Routine) (ints : String → Int) : Prop :=
  ∀ p ∈ r.parameters, p.kind = .integer → SpellsNumber k.bindings (r.role p.name) (ints p.name)

section
variable {numbers : List (String × Int)}

/-- Numbers that are spelled for all integer parameters are integers to start with. -/
theorem Kernel.exists_starts
    (hkeys : numbers.map Prod.fst = (r.parameters.filter (·.kind = .integer)).map (·.name))
    (hnodup : (numbers.map Prod.fst).Nodup)
    (h : ∀ entry ∈ numbers, SpellsNumber k.bindings (r.role entry.1) entry.2) :
    ∃ ints, k.Starts r ints := by
  refine ⟨fun name => (numbers.lookup name).getD 0, fun p hp hinteger => ?_⟩
  have hname : p.name ∈ numbers.map Prod.fst := by
    rw [hkeys]
    exact List.mem_map_of_mem (List.mem_filter.2 ⟨hp, decide_eq_true hinteger⟩)
  obtain ⟨entry, hentry, hname⟩ := List.mem_map.1 hname
  have hlookup := Computation.lookup_of_mem hnodup hentry
  beta_reduce
  rw [← hname, hlookup]
  exact h entry hentry

/-- The integers to start with are the numbers that are spelled. -/
theorem Kernel.Starts.eq_number {ints : String → Int} (hstarts : k.Starts r ints)
    (hkeys : numbers.map Prod.fst = (r.parameters.filter (·.kind = .integer)).map (·.name))
    (hnodup : (k.bindings.map Binding.role).Nodup)
    (h : ∀ entry ∈ numbers, SpellsNumber k.bindings (r.role entry.1) entry.2) :
    ∀ entry ∈ numbers, ints entry.1 = entry.2 := by
  intro entry hentry
  have hname : entry.1 ∈ (r.parameters.filter (·.kind = .integer)).map (·.name) :=
    hkeys ▸ List.mem_map_of_mem hentry
  obtain ⟨p, hp, hname⟩ := List.mem_map.1 hname
  obtain ⟨hp, hinteger⟩ := List.mem_filter.1 hp
  have hstart := hstarts p hp (of_decide_eq_true hinteger)
  rw [hname] at hstart
  exact hstart.unique hnodup (h entry hentry)

end

/-! ## Scaling -/

namespace AxiswiseScale

/-- What the integer parameters stand for. -/
def numbers (y : View) : List (String × Int) := [("N", y.size), ("C", y.extent .c)]

/-- The integer parameters are bound to the number of elements and that of channels. -/
theorem spells_numbers (ht : t.Complete) (hy : y.view t = .ok yv)
    (hroles : roles t l x s y = .ok values) (hbinds : BindsAll t slots values bindings slots') :
    ∀ entry ∈ numbers yv, SpellsNumber bindings (routine.role entry.1) entry.2 := by
  obtain ⟨xRegion, yRegion, sRegion, channels, -, -, -, hchannels, rfl⟩ := roles_eq_ok.1 hroles
  have hsize : SpellsNumber bindings (routine.role "N") yv.size :=
    hbinds.spellsNumber ht (by simp) fun m hm => Tensor.size_of_view (.refl t) hy hm
  have hextent : SpellsNumber bindings (routine.role "C") (yv.extent .c) := by
    refine hbinds.spellsNumber ht (e := t.simplify channels) (by simp) fun m hm => ?_
    obtain ⟨n, hn, heq⟩ := Tensor.extent_of_view hy hchannels
    rw [hm.unique ((SymbolTable.Extends.refl t).evaluates_simplify hn), heq]
  simp only [numbers, List.forall_mem_cons]
  exact ⟨hsize, hextent, nofun⟩

end AxiswiseScale

/-! ## Deconvolution -/

/-- Roles of simplified extents are bound to their values. -/
theorem ScalarRoles.spellsNumber {β : Type} {role : β → String} {extent : β → Lowering Extent}
    {names : List β} {group : List (String × RoleValue)} {number : β → Int} (ht : t.Complete)
    (hbinds : BindsAll t slots values bindings slots') (h : ScalarRoles t role extent names group)
    (hgroup : group ⊆ values)
    (hnumber : ∀ name e m, extent name = .ok e → t.Evaluates (t.simplify e) m →
      m.toInt = number name) :
    ∀ name ∈ names, SpellsNumber bindings (role name) (number name) := by
  intro name hname
  obtain ⟨entry, hentry, e, he, rfl⟩ := Computation.exists_result_of_mem h hname
  exact hbinds.spellsNumber ht (hgroup hentry) fun m hm => hnumber name e m he hm

namespace Deconvolution

variable {p : Deconvolution}

/-- The integer parameters are bound to the numbers of the views and of the operator; the window
must be one that a signed word can hold. -/
theorem spells_numbers (ht : t.Complete) (hx : x.view t = .ok xv) (hs : s.view t = .ok sv)
    (hy : y.view t = .ok yv) (hh : p.ksize.h.toInt64.toInt = p.ksize.h.toNat)
    (hw : p.ksize.w.toInt64.toInt = p.ksize.w.toNat) (hroles : p.roles t l x s y = .ok values)
    (hbinds : BindsAll t slots values bindings slots') :
    ∀ entry ∈ p.numbers xv sv yv, SpellsNumber bindings (routine.role entry.1) entry.2 := by
  obtain ⟨xRegion, sRegion, yRegion, inputs, outputs, xStrides, sStrides, yStrides, -, -, -, hi, ho,
    hxs, hss, hys, rfl⟩ := roles_eq_ok.1 hroles
  rw [extentRoles_eq_ok] at hi ho
  rw [strideRoles_eq_ok] at hxs hss hys
  have hextent : ∀ {z : Tensor} {zv : View} (name : String × Axis) (e m),
      z.view t = .ok zv → z.shape.extent name.2 = .ok e → t.Evaluates (t.simplify e) m →
        m.toInt = zv.extent name.2 := by
    intro z zv name e m hz he hm
    obtain ⟨n, hn, heq⟩ := Tensor.extent_of_view hz he
    rw [hm.unique ((SymbolTable.Extends.refl t).evaluates_simplify hn), heq]
  have hgroups : p.numbers xv sv yv =
      [("N", Axis.n), ("C1", .c), ("H1", .h), ("W1", .w)].map
        (fun name => (name.1, (xv.extent name.2 : Int))) ++
      [("C2", Axis.c), ("H2", .h), ("W2", .w)].map
        (fun name => (name.1, (yv.extent name.2 : Int))) ++
      [("KH", p.ksize.h), ("KW", p.ksize.w), ("SH", p.stride.h), ("SW", p.stride.w),
          ("PH", p.padding.h), ("PW", p.padding.w)].map
        (fun name => (name.1, name.2.toInt64.toInt)) ++
      strideAxes.map (fun axis => ("X" ++ "S" ++ axis.text, (xv.stride axis : Int))) ++
      strideAxes.map (fun axis => ("W" ++ "S" ++ axis.text, (sv.stride axis : Int))) ++
      strideAxes.map (fun axis => ("Y" ++ "S" ++ axis.text, (yv.stride axis : Int))) := by
    rw [numbers, ← hh, ← hw]
    rfl
  simp only [hgroups, List.forall_mem_append, List.forall_mem_map]
  refine ⟨⟨⟨⟨⟨?_, ?_⟩, ?_⟩, ?_⟩, ?_⟩, ?_⟩
  · exact hi.spellsNumber ht hbinds (by intro e he; simp [he]) fun name e m => hextent name e m hx
  · exact ho.spellsNumber ht hbinds (by intro e he; simp [he]) fun name e m => hextent name e m hy
  · intro name hname
    have hvalue : (routine.role name.1, RoleValue.scalar (.ofWord name.2)) ∈ p.windowRoles :=
      List.mem_map_of_mem
        (f := fun name => (routine.role name.1, RoleValue.scalar (.ofWord name.2))) hname
    refine hbinds.spellsNumber ht (e := .ofWord name.2) (by simp [hvalue]) fun m hm => ?_
    rw [← SymbolTable.evaluates_value.1 hm]
  · exact hxs.spellsNumber ht hbinds (by intro e he; simp [he])
      fun axis e m => Tensor.stride_of_view hx
  · exact hss.spellsNumber ht hbinds (by intro e he; simp [he])
      fun axis e m => Tensor.stride_of_view hs
  · exact hys.spellsNumber ht hbinds (by intro e he; simp [he])
      fun axis e m => Tensor.stride_of_view hy

end Deconvolution

end TensorLowering
