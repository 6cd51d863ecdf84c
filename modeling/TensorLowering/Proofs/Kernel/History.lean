import Mathlib.Data.List.Nodup
import TensorLowering.Proofs.Kernel.Recording
import TensorLowering.Proofs.Kernel.References
import TensorLowering.Proofs.Template.Tokenisation

/-!
# Histories of a role binder

A binder is registered with and filled from in any order, and a filling that fails leaves what it
recorded. Whatever the history, slots are numbered by their position, a role has one binding and at
most one slot, and an expression refers to the slot of its role and to no other
(`RoleBinder.Reachable.metadata_consistent`). All of it follows from what one use of a role keeps
(`RoleBinder.Uses.consistent`): registering a role and looking for one that is not registered do not
touch what is recorded.
-/

namespace TensorLowering

open RoleBinder

/-! ## Histories -/

namespace RoleBinder

/-- A call on a binder. -/
inductive Call where
  | register (role : String) (value : RoleValue)
  | fill (template : Template)
  deriving DecidableEq, Repr

/-- The binder after a call, whether the call fails or not. -/
def Call.run (b : RoleBinder) : Call → RoleBinder
  | register role value => b.register role value
  | fill t => (b.fill t).1

/-- The binder after a history of calls. -/
def after (b : RoleBinder) (calls : List Call) : RoleBinder := calls.foldl Call.run b

/-- A binder that some history of calls leaves. -/
def Reachable (b : RoleBinder) : Prop := ∃ t calls, (empty t).after calls = b

variable {b b' : RoleBinder} {role text : String} {value : RoleValue} {t : Template}
  {extent : Extent}

/-- Filling a template uses roles. -/
theorem exists_usesAll (b : RoleBinder) (t : Template) : ∃ roles, b.UsesAll roles (b.fill t).1 := by
  have h := b.fill_outcome t
  generalize b.fill t = result at h
  cases h with
  | unregistered => exact ⟨[], .nil⟩
  | filled _ huses => exact ⟨t.loads, huses⟩
  | @stuck b' before _ _ _ _ _ _ huses => exact ⟨before, huses⟩

/-! ## What is recorded for a role -/

/-- The text spells an extent for a role: by the value of the extent, if the role has no slot, and
otherwise by the slot in which the role has the extent. -/
inductive Records (b : RoleBinder) (role : String) (extent : Extent) : String → Prop
  | value {n : Int64} (hn : b.symbols.Evaluates extent n)
      (hrole : role ∉ b.slots.map MetadataSlot.role) : Records b role extent (toString n.toInt)
  | slot {k : Nat} (hn : b.symbols.evaluate extent = .ok none)
      (hslot : b.slots[k]? = some ⟨k, role, extent, b.symbols.render extent⟩) :
    Records b role extent (slotExpression k)

/-- What a binder has recorded fits together. -/
structure Consistent (b : RoleBinder) : Prop where
  slot_eq : ∀ (k : Nat) (slot : MetadataSlot), b.slots[k]? = some slot → slot.slot = k
  nodup_roles : b.rolesInUse.Nodup
  slot_role : ∀ slot ∈ b.slots, slot.role ∈ b.rolesInUse
  nodup_slots : (b.slots.map MetadataSlot.role).Nodup
  recorded : ∀ binding ∈ b.bindings, ∃ (value : RoleValue) (spelled : String),
    b.Records binding.role value.number spelled ∧ value.binding binding.role spelled = binding

/-- A role that is not in use has no slot. -/
theorem Consistent.not_mem_slots (hb : b.Consistent) (hfresh : role ∉ b.rolesInUse) :
    role ∉ b.slots.map MetadataSlot.role := by
  intro hrole
  obtain ⟨slot, hslot, rfl⟩ := List.mem_map.1 hrole
  exact hfresh (hb.slot_role slot hslot)

theorem consistent_empty (t : SymbolTable) : (empty t).Consistent :=
  ⟨nofun, .nil, nofun, .nil, nofun⟩

theorem rolesInUse_append (b : RoleBinder) (role : String) (value : RoleValue)
    (slots : List MetadataSlot) (spelled : String) :
    ({ b with slots, bindings := b.bindings ++ [value.binding role spelled] } :
      RoleBinder).rolesInUse = b.rolesInUse ++ [role] := by
  simp [rolesInUse, RoleValue.binding_role]

/-- What is recorded for a role in use is there to stay. -/
theorem Records.uses {other : String} (h : b.Records other extent text)
    (hother : other ∈ b.rolesInUse) (huse : b.Uses role b') : b'.Records other extent text := by
  cases huse with
  | again => exact h
  | first hfresh hvalue hspells =>
    have hne : other ≠ role := fun heq => hfresh (heq ▸ hother)
    cases hspells with
    | known =>
      cases h with
      | value hn hrole => exact .value hn hrole
      | slot hn hslot => exact .slot hn hslot
    | slot =>
      cases h with
      | value hn hrole => exact .value hn (by simpa [hne] using hrole)
      | slot hn hslot =>
        refine .slot hn ?_
        rw [List.getElem?_append_left (List.getElem?_eq_some_iff.1 hslot).1]
        exact hslot

/-- A role that is bound for the first time is recorded. -/
theorem records_of_spells {slots : List MetadataSlot} {bindings : List Binding}
    (hrole : role ∉ b.slots.map MetadataSlot.role)
    (h : Spells b.symbols b.slots role extent text slots) :
    ({ b with slots, bindings } : RoleBinder).Records role extent text := by
  cases h with
  | known hn => exact .value hn hrole
  | slot hn => exact .slot hn (by simp)

/-- A new slot is numbered by its position. -/
theorem slot_eq_of_spells {symbols : SymbolTable} {slots slots' : List MetadataSlot}
    (h : Spells symbols slots role extent text slots')
    (hslots : ∀ (k : Nat) (slot : MetadataSlot), slots[k]? = some slot → slot.slot = k) :
    ∀ (k : Nat) (slot : MetadataSlot), slots'[k]? = some slot → slot.slot = k := by
  intro k slot hslot
  cases h with
  | known => exact hslots k slot hslot
  | slot =>
    rcases Nat.lt_or_ge k slots.length with hk | hk
    · rw [List.getElem?_append_left hk] at hslot
      exact hslots k slot hslot
    · rw [List.getElem?_append_right hk, List.getElem?_singleton] at hslot
      split at hslot
      · cases hslot
        show slots.length = k
        omega
      · cases hslot

/-- A new slot belongs to the role that is spelled. -/
theorem mem_of_spells {symbols : SymbolTable} {slots slots' : List MetadataSlot}
    {slot : MetadataSlot} (h : Spells symbols slots role extent text slots')
    (hslot : slot ∈ slots') : slot ∈ slots ∨ slot.role = role := by
  cases h with
  | known => exact .inl hslot
  | slot =>
    rcases List.mem_append.1 hslot with hslot | hslot
    · exact .inl hslot
    · cases List.mem_singleton.1 hslot
      exact .inr rfl

/-- A role that has no slot gets one at most. -/
theorem nodup_of_spells {symbols : SymbolTable} {slots slots' : List MetadataSlot}
    (h : Spells symbols slots role extent text slots')
    (hrole : role ∉ slots.map MetadataSlot.role) (hnodup : (slots.map MetadataSlot.role).Nodup) :
    (slots'.map MetadataSlot.role).Nodup := by
  cases h with
  | known => exact hnodup
  | slot =>
    rw [List.map_append, List.nodup_append_comm]
    exact List.nodup_cons.2 ⟨hrole, hnodup⟩

/-- Using a role keeps what is recorded consistent. -/
theorem Uses.consistent (hb : b.Consistent) (h : b.Uses role b') : b'.Consistent := by
  cases h with
  | again => exact hb
  | @first value spelled slots hfresh hvalue hspells =>
    have hslots : role ∉ b.slots.map MetadataSlot.role := hb.not_mem_slots hfresh
    have huse : b.Uses role _ := .first hfresh hvalue hspells
    have hroles := b.rolesInUse_append role value slots spelled
    refine ⟨slot_eq_of_spells hspells hb.slot_eq, ?_, ?_,
      nodup_of_spells hspells hslots hb.nodup_slots, ?_⟩
    · rw [hroles, List.nodup_append_comm]
      exact List.nodup_cons.2 ⟨hfresh, hb.nodup_roles⟩
    · rw [hroles]
      intro slot hslot
      rcases mem_of_spells hspells hslot with hslot | hrole
      · exact List.mem_append_left _ (hb.slot_role slot hslot)
      · exact List.mem_append_right _ (List.mem_singleton.2 hrole)
    · intro binding hbinding
      rcases List.mem_append.1 hbinding with hbinding | hbinding
      · obtain ⟨value', spelled', hrecords, heq⟩ := hb.recorded binding hbinding
        exact ⟨value', spelled', hrecords.uses (List.mem_map_of_mem hbinding) huse, heq⟩
      · cases List.mem_singleton.1 hbinding
        rw [RoleValue.binding_role]
        exact ⟨value, spelled, records_of_spells hslots hspells, rfl⟩

/-- Registering a role touches nothing that is recorded. -/
theorem Records.register (h : b.Records role extent text) (key : String) (value : RoleValue) :
    (b.register key value).Records role extent text := by
  cases h with
  | value hn hrole => exact .value hn hrole
  | slot hn hslot => exact .slot hn hslot

theorem Consistent.run (hb : b.Consistent) (call : Call) : (call.run b).Consistent := by
  cases call with
  | register key value =>
    refine ⟨hb.slot_eq, hb.nodup_roles, hb.slot_role, hb.nodup_slots, ?_⟩
    intro binding hbinding
    obtain ⟨value', spelled, hrecords, heq⟩ := hb.recorded binding hbinding
    exact ⟨value', spelled, hrecords.register key value, heq⟩
  | fill t =>
    obtain ⟨roles, huses⟩ := b.exists_usesAll t
    exact huses.invariant (fun h huse => huse.consistent h) hb

/-- Whatever every call keeps holds of every binder that a history leaves. -/
theorem Reachable.invariant {P : RoleBinder → Prop} (start : ∀ t, P (empty t))
    (step : ∀ {b : RoleBinder} (call : Call), P b → P (call.run b)) (hb : b.Reachable) : P b := by
  obtain ⟨t, calls, rfl⟩ := hb
  generalize hstart : empty t = first
  have hfirst : P first := hstart ▸ start t
  clear hstart
  induction calls generalizing first with
  | nil => exact hfirst
  | cons call calls ih => exact ih (call.run first) (step call hfirst)

theorem Reachable.consistent (hb : b.Reachable) : b.Consistent :=
  hb.invariant consistent_empty fun call h => h.run call

end RoleBinder

/-! ## References in expressions -/

namespace RoleBinder

variable {b : RoleBinder}

/-- The expression of a role refers to the slot of the role. -/
theorem Consistent.refersTo_iff (hb : b.Consistent) {binding : Binding}
    (hbinding : binding ∈ b.bindings) (k : Nat) :
    RefersTo binding.expression k ↔ ∃ slot, b.slots[k]? = some slot ∧ slot.role = binding.role := by
  obtain ⟨value, spelled, hrecords, heq⟩ := hb.recorded binding hbinding
  rw [← heq]
  cases hrecords with
  | value hn hrole =>
    refine iff_of_false (value.not_refersTo_number _ _ k) ?_
    intro h
    obtain ⟨slot, hslot, hslotRole⟩ := h
    rw [RoleValue.binding_role] at hslotRole
    exact hrole (List.mem_map.2 ⟨slot, List.mem_of_getElem? hslot, hslotRole⟩)
  | @slot j hn hslot =>
    rw [value.refersTo_slot, RoleValue.binding_role]
    refine ⟨?_, ?_⟩
    · intro h
      subst h
      exact ⟨_, hslot, rfl⟩
    · intro h
      obtain ⟨slot, hk, hrole⟩ := h
      have hslotEq := List.inj_on_of_nodup_map hb.nodup_slots (List.mem_of_getElem? hk)
        (List.mem_of_getElem? hslot) hrole
      rw [← hb.slot_eq k slot hk, hslotEq]

/-! ## Consistency after every history -/

/-- What is recorded after a history fits together: slots are numbered by their position, a role in
use has one binding and at most one slot, every slot belongs to a role in use, and an expression
refers to the slot of its role and to no other. Filling a template fails for want of a role exactly
if one of its loads is not registered, and then leaves the binder as it was. A filled template has
the expressions of the roles in the place of loads, and is in normal form. -/
theorem Reachable.metadata_consistent {b : RoleBinder} (hb : b.Reachable) :
    (∀ (k : Nat) (slot : MetadataSlot), b.slots[k]? = some slot → slot.slot = k) ∧
      b.rolesInUse.Nodup ∧ (∀ slot ∈ b.slots, slot.role ∈ b.rolesInUse) ∧
      (b.slots.map MetadataSlot.role).Nodup ∧
      (∀ binding ∈ b.bindings, ∀ k, RefersTo binding.expression k ↔
        ∃ slot, b.slots[k]? = some slot ∧ slot.role = binding.role) ∧
      ∀ t,
        ((∃ role registered, (b.fill t).2 = .error (.unknownRole role registered)) ↔
          ∃ role ∈ t.loads, b.isRegistered role = false) ∧
        ((∃ role registered, (b.fill t).2 = .error (.unknownRole role registered)) →
          (b.fill t).1 = b) ∧
        ∀ filled, (b.fill t).2 = .ok filled →
          t.FilledBy (b.fill t).1.HasExpression filled ∧ Segment.Normal filled.segments := by
  have hconsistent := hb.consistent
  refine ⟨hconsistent.slot_eq, hconsistent.nodup_roles, hconsistent.slot_role,
    hconsistent.nodup_slots, fun binding hbinding => hconsistent.refersTo_iff hbinding, ?_⟩
  intro t
  refine ⟨fill_unknownRole_iff, ?_, ?_⟩
  · intro h
    exact fill_of_unregistered (fill_unknownRole_iff.1 h)
  · intro filled h
    refine ⟨filledBy_of_fill h, ?_⟩
    obtain ⟨segments, -, rfl⟩ := filledBy_of_fill h
    exact Segment.normal_ofSegments segments

/-- A region at an offset with an unbound symbol is used by a filling that then fails at a division
by zero; the number of rows, which is the symbol, is used after it. -/
def rowsAfterFailure : RoleBinder :=
  (empty ⟨[⟨"M", none⟩]⟩).after [
    .register "X" (.region ⟨0, "x", .dynamic, .symbol 0 * .value 16, .value 16⟩),
    .register "Z" (.scalar (.floorDiv (.value 1) (.value 0))),
    .fill ⟨[.load "X", .load "Z"]⟩,
    .register "M" (.scalar (.symbol 0)),
    .fill ⟨[.load "X", .literal "[", .load "M", .literal "]"]⟩]

/-- The region keeps the slot of the filling that failed, and the number of rows has the next. -/
theorem metadata_consistent_rowsAfterFailure :
    rowsAfterFailure.rolesInUse = ["X", "M"] ∧
      (∃ slot, rowsAfterFailure.slots[1]? = some slot ∧ slot.slot = 1 ∧ slot.role = "M") ∧
      RefersTo "meta_buffer[1]" 1 ∧ ¬ RefersTo "meta_buffer[1]" 0 ∧
      (rowsAfterFailure.fill ⟨[.load "Y"]⟩).1 = rowsAfterFailure := by
  have hreachable : rowsAfterFailure.Reachable := ⟨_, _, rfl⟩
  obtain ⟨hslot, -, -, -, hrefers, hfill⟩ := hreachable.metadata_consistent
  have hroles : rowsAfterFailure.slots.map MetadataSlot.role = ["X", "M"] := by decide +kernel
  have hrows : ⟨"M", none, none, "meta_buffer[1]"⟩ ∈ rowsAfterFailure.bindings := by
    decide +kernel
  have hlast : rowsAfterFailure.slots[1]? =
      some ⟨1, "M", .symbol 0, rowsAfterFailure.symbols.render (.symbol 0)⟩ := by decide +kernel
  refine ⟨by decide +kernel, ⟨_, hlast, hslot 1 _ hlast, rfl⟩,
    (hrefers _ hrows 1).2 ⟨_, hlast, rfl⟩, ?_, ?_⟩
  · intro h
    obtain ⟨slot, hslot, hrole⟩ := (hrefers _ hrows 0).1 h
    have hfirst := congrArg (·[0]?) hroles
    rw [List.getElem?_map, hslot] at hfirst
    exact absurd ((Option.some.inj hfirst).symm.trans hrole) (by decide)
  · exact (hfill ⟨[.load "Y"]⟩).2.1 ((hfill ⟨[.load "Y"]⟩).1.2 ⟨"Y", by decide, by decide +kernel⟩)

end RoleBinder

end TensorLowering
