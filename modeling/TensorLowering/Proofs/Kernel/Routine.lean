import TensorLowering.Kernel.Routine
import TensorLowering.Proofs.Kernel.Filling

/-!
# Kernels of routines

A routine loads every parameter once, from a role of its own. So a kernel of the routine is its
source with one spelling for each parameter (`Routine.source`), its bindings are those of the
values in the order of the parameters, and slots are numbered in that order (`BindsAll`,
`Routine.instantiate_eq_ok`).
-/

namespace TensorLowering

open Filling RoleBinder

/-! ## Values in sequence -/

/-- The bindings of values to their roles, in sequence, with the slots in use before and after. -/
inductive BindsAll (t : SymbolTable) : List MetadataSlot → List (String × RoleValue) →
    List Binding → List MetadataSlot → Prop
  | nil {slots : List MetadataSlot} : BindsAll t slots [] [] slots
  | cons {slots slots₁ slots₂ : List MetadataSlot} {role text : String} {value : RoleValue}
      {rest : List (String × RoleValue)} {bindings : List Binding}
      (hspells : Spells t slots role value.number text slots₁)
      (hrest : BindsAll t slots₁ rest bindings slots₂) :
    BindsAll t slots ((role, value) :: rest) (value.binding role text :: bindings) slots₂

namespace BindsAll

variable {t : SymbolTable} {slots slots' : List MetadataSlot} {values : List (String × RoleValue)}
  {bindings : List Binding}

/-- Bindings have the roles of the values. -/
theorem keys (h : BindsAll t slots values bindings slots') :
    bindings.map Binding.role = values.map Prod.fst := by
  induction h with
  | nil => rfl
  | cons _ _ ih => rw [List.map_cons, List.map_cons, ih, RoleValue.binding_role]

/-- Slots are only added. -/
theorem slots_prefix (h : BindsAll t slots values bindings slots') : slots <+: slots' := by
  induction h with
  | nil => exact List.prefix_refl _
  | cons hspells _ ih =>
    cases hspells with
    | known => exact ih
    | slot => exact (List.prefix_append _ _).trans ih

/-- A value is bound to a text that spells its number. -/
theorem exists_spells {role : String} {value : RoleValue}
    (h : BindsAll t slots values bindings slots') (hvalue : (role, value) ∈ values) :
    ∃ text before after, Spells t before role value.number text after ∧
      value.binding role text ∈ bindings := by
  induction h with
  | nil => cases hvalue
  | cons hspells _ ih =>
    rcases List.mem_cons.1 hvalue with heq | hvalue
    · cases heq
      exact ⟨_, _, _, hspells, List.mem_cons_self⟩
    · obtain ⟨text, before, after, hspells, hmem⟩ := ih hvalue
      exact ⟨text, before, after, hspells, List.mem_cons_of_mem _ hmem⟩

end BindsAll

theorem setKey_fresh {key : String} {value : RoleValue} {entries : List (String × RoleValue)}
    (hfresh : key ∉ entries.map Prod.fst) :
    setKey key value entries = entries ++ [(key, value)] := by
  induction entries with
  | nil => rfl
  | cons entry rest ih =>
    rw [List.map_cons, List.mem_cons, not_or] at hfresh
    rw [setKey, if_neg (Ne.symm hfresh.1), ih hfresh.2, List.cons_append]

/-- A binder of distinct roles registers them in sequence. -/
theorem RoleBinder.ofRoles_eq {t : SymbolTable} {values : List (String × RoleValue)}
    (hnodup : (values.map Prod.fst).Nodup) : ofRoles t values = ⟨t, values, [], []⟩ := by
  suffices hfold : ∀ before : List (String × RoleValue), ((before ++ values).map Prod.fst).Nodup →
      values.foldl (fun b entry => b.register entry.1 entry.2) (⟨t, before, [], []⟩ : RoleBinder) =
        ⟨t, before ++ values, [], []⟩ from hfold [] hnodup
  clear hnodup
  induction values with
  | nil =>
    intro before _
    rw [List.append_nil, List.foldl_nil]
  | cons entry values ih =>
    intro before hnodup
    have hfresh : entry.1 ∉ before.map Prod.fst := by
      rw [List.map_append, List.map_cons] at hnodup
      intro hmem
      exact (List.nodup_append.1 hnodup).2.2 _ hmem _ List.mem_cons_self rfl
    have hcons : before ++ entry :: values = (before ++ [entry]) ++ values := by simp
    rw [List.foldl_cons, register, setKey_fresh hfresh, hcons]
    exact ih _ (hcons ▸ hnodup)

/-! ## Parameters -/

/-- The line that declares a parameter, with its value spelled out. -/
def Parameter.line (p : Parameter) (text : String) : String :=
  Code.indentation 1 ++ p.declaration ++ " = " ++ text ++ ";\n"

namespace Routine

/-- The segments of the line of a parameter. -/
def lineSegments (r : Routine) (p : Parameter) : List Segment :=
  [.literal (Code.indentation 1 ++ p.declaration ++ " = "), .load (r.role p.name), .literal ";\n"]

/-- The lines of parameters, with their values spelled out. -/
def lines (parameters : List Parameter) (texts : List String) : String :=
  String.join (List.zipWith Parameter.line parameters texts)

/-- The source of a kernel of the routine. -/
def source (r : Routine) (entry : String) (texts : List String) : String :=
  "\nvoid " ++ entry ++ "(const int * " ++ metadataPointer ++ ")\n\x7b\n" ++
    lines r.parameters texts ++ ("\n" ++ r.body.render 1 ++ "\x7d\n")

variable {r : Routine} {b b' : RoleBinder} {text : String} {parameters : List Parameter}
  {values : List (String × RoleValue)}

theorem lines_cons {p : Parameter} {texts : List String} :
    lines (p :: parameters) (text :: texts) = p.line text ++ lines parameters texts := by
  rw [lines, List.zipWith_cons_cons, String.join_cons, lines]

/-- A filled line spells the value of its role. -/
theorem renders_line {p : Parameter} {value : RoleValue} {rest : List Segment}
    (hfresh : r.role p.name ∉ b.bindings.map Binding.role)
    (hvalue : b.registered.lookup (r.role p.name) = some value) :
    Segment.Renders (r.lineSegments p ++ rest) b text b' ↔
      ∃ spelled slots last, Spells b.symbols b.slots (r.role p.name) value.number spelled slots ∧
        Segment.Renders rest
          { b with slots, bindings := b.bindings ++ [value.binding (r.role p.name) spelled] }
          last b' ∧
        p.line (value.binding (r.role p.name) spelled).expression ++ last = text := by
  have hload : ∀ {first b₁}, Yields (fillSegment (.load (r.role p.name))) b (.literal first) b₁ ↔
      Yields (expression (r.role p.name)) b first b₁ := by
    intro first b₁
    simp only [fillSegment, yields_bind, yields_pure, Segment.literal.injEq]
    constructor
    · rintro ⟨_, _, h, rfl, rfl⟩
      exact h
    · intro h
      exact ⟨first, b₁, h, rfl, rfl⟩
  rw [lineSegments, List.cons_append, List.cons_append, List.cons_append, List.nil_append]
  simp only [Segment.renders_literal, Segment.renders_cons (s := .load _), hload,
    yields_expression hfresh hvalue]
  constructor
  · rintro ⟨_, ⟨_, _, _, ⟨spelled, slots, hspells, rfl, rfl⟩, ⟨last, hlast, rfl⟩, rfl⟩, rfl⟩
    exact ⟨spelled, slots, last, hspells, hlast, by simp only [Parameter.line, String.append_assoc]⟩
  · rintro ⟨spelled, slots, last, hspells, hlast, rfl⟩
    refine ⟨_, ⟨_, _, _, ⟨spelled, slots, hspells, rfl, rfl⟩, ⟨last, hlast, rfl⟩, rfl⟩, ?_⟩
    simp only [Parameter.line, String.append_assoc]

/-- Filled lines of parameters spell the values of their roles. -/
theorem renders_lines (hkeys : values.map Prod.fst = parameters.map (r.role ·.name))
    (hnodup : (values.map Prod.fst).Nodup)
    (hfresh : ∀ entry ∈ values, entry.1 ∉ b.bindings.map Binding.role)
    (hvalues : ∀ entry ∈ values, b.registered.lookup entry.1 = some entry.2) :
    Segment.Renders (parameters.flatMap r.lineSegments) b text b' ↔
      ∃ bindings slots, BindsAll b.symbols b.slots values bindings slots ∧
        lines parameters (bindings.map Binding.expression) = text ∧
        { b with slots, bindings := b.bindings ++ bindings } = b' := by
  induction parameters generalizing values b text with
  | nil =>
    obtain rfl : values = [] := List.map_eq_nil_iff.1 hkeys
    rw [List.flatMap_nil, Segment.renders_nil]
    constructor
    · rintro ⟨rfl, rfl⟩
      exact ⟨[], b.slots, .nil, rfl, by rw [List.append_nil]⟩
    · rintro ⟨bindings, slots, hbinds, rfl, rfl⟩
      cases hbinds
      exact ⟨rfl, by rw [List.append_nil]⟩
  | cons p parameters ih =>
    obtain ⟨⟨role, value⟩, rest, rfl⟩ := List.exists_cons_of_ne_nil
      (l := values) (by rintro rfl; cases hkeys)
    obtain ⟨hkey, hkeys'⟩ := List.cons.inj hkeys
    obtain rfl : role = r.role p.name := hkey
    obtain ⟨hother, hnodup'⟩ := List.nodup_cons.1 hnodup
    obtain ⟨hrole, hfresh'⟩ := List.forall_mem_cons.1 hfresh
    obtain ⟨hvalue, hvalues'⟩ := List.forall_mem_cons.1 hvalues
    -- The binder after the first line still has the other roles to bind.
    have hlast : ∀ spelled slots {last},
        Segment.Renders (parameters.flatMap r.lineSegments)
          { b with slots, bindings := b.bindings ++ [value.binding (r.role p.name) spelled] }
          last b' ↔
        ∃ bindings slots', BindsAll b.symbols slots rest bindings slots' ∧
          lines parameters (bindings.map Binding.expression) = last ∧
          { b with slots := slots', bindings :=
              b.bindings ++ [value.binding (r.role p.name) spelled] ++ bindings } = b' := by
      intro spelled slots last
      refine ih hkeys' hnodup' (fun entry hentry hused => ?_) hvalues'
      rw [List.map_append, List.mem_append, List.map_singleton, List.mem_singleton,
        RoleValue.binding_role] at hused
      rcases hused with hused | hsame
      · exact hfresh' entry hentry hused
      · have hmem : entry.1 ∈ rest.map Prod.fst := List.mem_map_of_mem hentry
        exact hother (hsame ▸ hmem)
    rw [List.flatMap_cons, renders_line hrole hvalue]
    simp only [hlast]
    constructor
    · rintro ⟨spelled, slots, _, hspells, ⟨bindings, slots', hbinds, rfl, rfl⟩, rfl⟩
      refine ⟨_, slots', .cons hspells hbinds, ?_, ?_⟩
      · exact lines_cons
      · rw [List.append_assoc, List.singleton_append]
    · rintro ⟨_, slots', hbinds, rfl, rfl⟩
      cases hbinds with
      | @cons _ slots _ _ spelled _ _ bindings hspells hbinds =>
        refine ⟨spelled, slots, _, hspells, ⟨bindings, slots', hbinds, rfl, ?_⟩, ?_⟩
        · rw [List.append_assoc, List.singleton_append]
        · exact lines_cons.symm

/-! ## Kernels -/

/-- The segments of the head of a kernel. -/
def headSegments : List Segment :=
  [.literal "\nvoid ", .functionName, .literal "(const int * ", .metaBuffer, .literal ")\n\x7b\n"]

/-- The head of a kernel with a function name spells that name and the name of the metadata. -/
theorem renders_head {n : KernelName} :
    Segment.Renders (headSegments.map n.segment) b text b' ↔
      "\nvoid " ++ n.text ++ "(const int * " ++ metadataPointer ++ ")\n\x7b\n" = text ∧ b = b' := by
  have hmeta : fillSegment .metaBuffer = fillSegment (.literal metadataPointer) := rfl
  simp only [headSegments, List.map_cons, List.map_nil, KernelName.segment, Segment.renders_literal,
    Segment.renders_congr hmeta, Segment.renders_nil]
  constructor
  · rintro ⟨_, ⟨_, ⟨_, ⟨_, ⟨_, ⟨rfl, rfl⟩, rfl⟩, rfl⟩, rfl⟩, rfl⟩, rfl⟩
    simp only [String.append_assoc, String.append_empty, and_self]
  · rintro ⟨rfl, rfl⟩
    refine ⟨_, ⟨_, ⟨_, ⟨_, ⟨_, ⟨rfl, rfl⟩, rfl⟩, rfl⟩, rfl⟩, rfl⟩, ?_⟩
    simp only [String.append_assoc, String.append_empty]

/-- The line of a parameter loads the role of the parameter and no other. -/
theorem role?_lineSegments (p : Parameter) :
    (r.lineSegments p).filterMap Segment.role? = [r.role p.name] := rfl

theorem role?_lines :
    (parameters.flatMap r.lineSegments).filterMap Segment.role? =
      parameters.map (r.role ·.name) := by
  induction parameters with
  | nil => rfl
  | cons p parameters ih =>
    rw [List.flatMap_cons, List.filterMap_append, role?_lineSegments, ih]
    rfl

/-- The lines of the parameters do not mention the function name. -/
theorem segment_lines {n : KernelName} :
    (parameters.flatMap r.lineSegments).map n.segment = parameters.flatMap r.lineSegments := by
  rw [List.map_flatMap]
  rfl

/-- The segments of the template, before neighbouring texts are joined. -/
def segments (r : Routine) : List Segment :=
  headSegments ++ r.parameters.flatMap r.lineSegments ++
    [.literal ("\n" ++ r.body.render 1 ++ "\x7d\n")]

theorem template_eq : r.template = .ofSegments r.segments := rfl

theorem role?_segments :
    r.segments.filterMap Segment.role? = r.parameters.map (r.role ·.name) := by
  rw [segments, List.filterMap_append, List.filterMap_append, role?_lines]
  exact List.append_nil _

theorem segment_segments {n : KernelName} :
    r.segments.map n.segment = headSegments.map n.segment ++
      r.parameters.flatMap r.lineSegments ++ [.literal ("\n" ++ r.body.render 1 ++ "\x7d\n")] := by
  rw [segments, List.map_append, List.map_append, segment_lines]
  rfl

/-- What a kernel of a routine is: the source of the routine with its values spelled out, the
bindings of these values, and a slot for each number that is not known. -/
theorem instantiate_eq_ok {t : SymbolTable} {n : KernelName} {k : Kernel}
    (hkeys : values.map Prod.fst = r.parameters.map (r.role ·.name))
    (hnodup : (values.map Prod.fst).Nodup) :
    Kernel.instantiate r.template n (.ofRoles t values) = .ok k ↔
      ∃ bindings slots, BindsAll t [] values bindings slots ∧
        ⟨n.text, r.source n.text (bindings.map Binding.expression), bindings, slots⟩ = k := by
  have hlines : ∀ {text b'}, Segment.Renders (r.parameters.flatMap r.lineSegments)
        ⟨t, values, [], []⟩ text b' ↔ ∃ bindings slots, BindsAll t [] values bindings slots ∧
      lines r.parameters (bindings.map Binding.expression) = text ∧
        ⟨t, values, bindings, slots⟩ = b' :=
    renders_lines hkeys hnodup (fun _ _ => List.not_mem_nil) fun entry hentry =>
      Computation.lookup_of_mem hnodup hentry
  rw [template_eq, Kernel.instantiate_eq_ok, RoleBinder.ofRoles_eq hnodup, role?_segments,
    segment_segments, ← hkeys]
  simp only [Segment.renders_append, renders_head, Segment.renders_singleton]
  constructor
  · rintro ⟨-, _, _, ⟨_, _, _, ⟨_, _, _, ⟨rfl, rfl⟩, hparameters, rfl⟩, ⟨rfl, rfl⟩, rfl⟩, rfl⟩
    obtain ⟨bindings, slots, hbinds, rfl, rfl⟩ := hlines.1 hparameters
    exact ⟨bindings, slots, hbinds, rfl⟩
  · rintro ⟨bindings, slots, hbinds, rfl⟩
    have hparameters := hlines.2 ⟨bindings, slots, hbinds, rfl, rfl⟩
    refine ⟨fun role hrole => ?_, _, _, ⟨_, _, _, ⟨_, _, _, ⟨rfl, rfl⟩, hparameters, rfl⟩,
      ⟨rfl, rfl⟩, rfl⟩, rfl⟩
    obtain ⟨entry, hentry, rfl⟩ := List.mem_map.1 hrole
    exact List.any_eq_true.2 ⟨entry, hentry, beq_self_eq_true _⟩

end Routine

end TensorLowering
