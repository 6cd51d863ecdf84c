import TensorLowering.Proofs.Kernel.History

/-!
# The value that a role is bound to

A role keeps the expression of its first use. So what a load is replaced by is the expression of
the value that was registered for its role before that use (`RoleBinder.fill_first_value`), and a
value that is registered later has no effect: only while no role of a template has been registered
again since its first use does the template get the values that were registered last
(`RoleBinder.fill_shadowed`).
-/

namespace TensorLowering

namespace RoleBinder

variable {b b' : RoleBinder} {role text : String} {roles : List String} {value : RoleValue}
  {calls : List Call} {t : SymbolTable} {u filled : Template}

/-! ## Registered values -/

/-- The value that a call registers for a role. -/
def Call.value? (role : String) : Call → Option RoleValue
  | register key value => if key = role then some value else none
  | fill _ => none

/-- The value that a history registers for a role last. -/
def latest (role : String) (calls : List Call) : Option RoleValue :=
  (calls.filterMap (Call.value? role)).getLast?

theorem latest_append (calls others : List Call) :
    latest role (calls ++ others) = (latest role others).or (latest role calls) := by
  rw [latest, List.filterMap_append, List.getLast?_append, latest, latest]

theorem latest_cons (call : Call) (calls : List Call) :
    latest role (call :: calls) = (latest role calls).or (call.value? role) := by
  have hcall : latest role [call] = call.value? role := by
    rw [latest, List.filterMap_cons]
    cases call.value? role <;> rfl
  rw [← hcall, ← latest_append]
  rfl

/-- A history in which a role is not registered has no value for it. -/
theorem latest_eq_none (h : ∀ value, .register role value ∉ calls) : latest role calls = none := by
  rw [latest, List.getLast?_eq_none_iff, List.filterMap_eq_nil_iff]
  intro call hcall
  cases call with
  | fill => rfl
  | register key value =>
    refine if_neg ?_
    intro hkey
    subst hkey
    exact h value hcall

theorem lookup_entry (key : String) (value : RoleValue) (entries : List (String × RoleValue)) :
    ((key, value) :: entries).lookup role =
      if key = role then some value else entries.lookup role := by
  by_cases hkey : key = role
  · rw [if_pos hkey, hkey, List.lookup_cons_self]
  · rw [if_neg hkey, List.lookup_cons, beq_eq_false_iff_ne.2 (Ne.symm hkey)]

theorem lookup_setKey (key : String) (value : RoleValue) (entries : List (String × RoleValue)) :
    (setKey key value entries).lookup role =
      if key = role then some value else entries.lookup role := by
  induction entries with
  | nil => rw [setKey, lookup_entry]
  | cons entry rest ih =>
    obtain ⟨other, old⟩ := entry
    rw [setKey]
    by_cases hother : other = key
    · rw [if_pos hother, lookup_entry, lookup_entry, hother]
      by_cases hkey : key = role
      · rw [if_pos hkey, if_pos hkey]
      · rw [if_neg hkey, if_neg hkey, if_neg hkey]
    · rw [if_neg hother, lookup_entry, lookup_entry, ih]
      by_cases hrole : other = role
      · have hkey : key ≠ role := fun hkey => hother (hrole.trans hkey.symm)
        rw [if_pos hrole, if_pos hrole, if_neg hkey]
      · rw [if_neg hrole, if_neg hrole]

/-- After a call, a role stands for the value that the call registers for it, or for what it stood
for before. -/
theorem lookup_run (b : RoleBinder) (call : Call) (role : String) :
    (call.run b).registered.lookup role =
      (call.value? role).or (b.registered.lookup role) := by
  cases call with
  | register key value =>
    rw [Call.run, register, lookup_setKey, Call.value?]
    split <;> rfl
  | fill u =>
    obtain ⟨roles, huses⟩ := b.exists_usesAll u
    rw [Call.run, huses.constant.2, Call.value?, Option.none_or]

/-! ## Bound roles -/

/-- The text is the expression of a value for a role. -/
def Expresses (b : RoleBinder) (role : String) (value : RoleValue) (text : String) : Prop :=
  ∃ spelled, b.Records role value.number spelled ∧ (value.binding role spelled).expression = text

/-- The role is bound to a value. -/
def Bound (b : RoleBinder) (role : String) (value : RoleValue) : Prop :=
  ∃ spelled, b.Records role value.number spelled ∧ value.binding role spelled ∈ b.bindings

theorem Bound.mem_rolesInUse (h : b.Bound role value) : role ∈ b.rolesInUse := by
  obtain ⟨spelled, -, hbinding⟩ := h
  exact List.mem_map.2 ⟨_, hbinding, value.binding_role role spelled⟩

/-- A bound role stays bound to its value. -/
theorem Bound.usesAll (h : b.Bound role value) (huses : b.UsesAll roles b') :
    b'.Bound role value := by
  refine huses.invariant (P := fun c => c.Bound role value) ?_ h
  intro c c' other hc huse
  obtain ⟨spelled, hrecords, hbinding⟩ := hc
  have hused : role ∈ c.rolesInUse := Bound.mem_rolesInUse ⟨spelled, hrecords, hbinding⟩
  refine ⟨spelled, hrecords.uses hused huse, ?_⟩
  exact (UsesAll.cons huse .nil).prefix_bindings.subset hbinding

theorem Bound.run (h : b.Bound role value) (call : Call) : (call.run b).Bound role value := by
  cases call with
  | register key other =>
    obtain ⟨spelled, hrecords, hbinding⟩ := h
    exact ⟨spelled, hrecords.register key other, hbinding⟩
  | fill u =>
    obtain ⟨roles, huses⟩ := b.exists_usesAll u
    exact h.usesAll huses

theorem Bound.after (h : b.Bound role value) (calls : List Call) :
    (b.after calls).Bound role value := by
  induction calls generalizing b with
  | nil => exact h
  | cons call calls ih => exact ih (h.run call)

/-- The expression of a bound role is that of its value. -/
theorem Bound.expresses (hb : b.Consistent) (h : b.Bound role value)
    (htext : b.HasExpression role text) : b.Expresses role value text := by
  obtain ⟨spelled, hrecords, hbinding⟩ := h
  obtain ⟨binding, hbinding', hrole, rfl⟩ := htext
  have heq : binding = value.binding role spelled :=
    List.inj_on_of_nodup_map hb.nodup_roles hbinding' hbinding
      (hrole.trans (value.binding_role role spelled).symm)
  exact ⟨spelled, hrecords, by rw [heq]⟩

/-- A role that gets used is bound to the value that it is registered with. -/
theorem UsesAll.exists_bound (h : b.UsesAll roles b') (hb : b.Consistent)
    (hfresh : role ∉ b.rolesInUse) (hrole : role ∈ b'.rolesInUse) :
    ∃ value, b.registered.lookup role = some value ∧ b'.Bound role value := by
  induction h with
  | nil => exact absurd hrole hfresh
  | @cons b b₁ b' key roles huse hrest ih =>
    by_cases hused : role ∈ b₁.rolesInUse
    · cases huse with
      | again => exact absurd hused hfresh
      | @first value spelled slots hkey hvalue hspells =>
        rw [rolesInUse_append, List.mem_append, List.mem_singleton] at hused
        obtain rfl := hused.resolve_left hfresh
        have hslots : role ∉ b.slots.map MetadataSlot.role := hb.not_mem_slots hfresh
        refine ⟨value, hvalue, Bound.usesAll ⟨spelled, records_of_spells hslots hspells, ?_⟩ hrest⟩
        exact List.mem_append_right _ (List.mem_singleton_self _)
    · obtain ⟨value, hvalue, hbound⟩ := ih (huse.consistent hb) hused hrole
      rw [(UsesAll.cons huse .nil).constant.2] at hvalue
      exact ⟨value, hvalue, hbound⟩

/-! ## First uses -/

/-- The calls of a history before the one that uses a role for the first time; all of them if none
does. -/
def beforeFirstUse (b : RoleBinder) (role : String) : List Call → List Call
  | [] => []
  | call :: calls =>
    if role ∈ (call.run b).rolesInUse then [] else call :: beforeFirstUse (call.run b) role calls

theorem prefix_beforeFirstUse (b : RoleBinder) (role : String) (calls : List Call) :
    beforeFirstUse b role calls <+: calls := by
  induction calls generalizing b with
  | nil => exact List.prefix_refl _
  | cons call calls ih =>
    rw [beforeFirstUse]
    split
    · exact List.nil_prefix
    · exact List.prefix_cons_inj call |>.2 (ih _)

/-- A call after the first use of a role does not move it. -/
theorem beforeFirstUse_concat (call : Call)
    (hrole : role ∈ (b.after (calls ++ [call])).rolesInUse) :
    beforeFirstUse b role (calls ++ [call]) = beforeFirstUse b role calls := by
  induction calls generalizing b with
  | nil => exact if_pos hrole
  | cons first calls ih =>
    rw [List.cons_append, beforeFirstUse, beforeFirstUse, ih hrole]

/-- A role that a history has used is bound to the value that was registered last before its first
use. -/
theorem exists_bound (hb : b.Consistent) (hfresh : role ∉ b.rolesInUse)
    (hrole : role ∈ (b.after calls).rolesInUse) :
    ∃ value, (latest role (beforeFirstUse b role calls)).or (b.registered.lookup role) =
        some value ∧
      (b.after calls).Bound role value := by
  induction calls generalizing b with
  | nil => exact absurd hrole hfresh
  | cons call calls ih =>
    rw [beforeFirstUse]
    split
    · next hused =>
      cases call with
      | register => exact absurd hused hfresh
      | fill u =>
        obtain ⟨roles, huses⟩ := b.exists_usesAll u
        obtain ⟨value, hvalue, hbound⟩ := huses.exists_bound hb hfresh hused
        exact ⟨value, hvalue, hbound.after calls⟩
    · next hunused =>
      obtain ⟨value, hvalue, hbound⟩ := ih (hb.run call) hunused hrole
      rw [lookup_run, ← Option.or_assoc] at hvalue
      exact ⟨value, by rw [latest_cons]; exact hvalue, hbound⟩

/-- The expression of a role after a filling is that of the value registered last before its first
use. -/
theorem exists_first_value (h : (((empty t).after calls).fill u).1.HasExpression role text) :
    ∃ value, latest role (beforeFirstUse (empty t) role calls) = some value ∧
      (((empty t).after calls).fill u).1.Expresses role value text := by
  have hb : (((empty t).after calls).fill u).1.Consistent :=
    (Reachable.consistent ⟨t, calls, rfl⟩).run (.fill u)
  have hafter : (empty t).after (calls ++ [.fill u]) = (((empty t).after calls).fill u).1 := by
    rw [after, List.foldl_append]
    rfl
  have hused : role ∈ ((empty t).after (calls ++ [.fill u])).rolesInUse := by
    obtain ⟨binding, hbinding, hrole, -⟩ := h
    rw [hafter]
    exact List.mem_map.2 ⟨binding, hbinding, hrole⟩
  have hunused : role ∉ (empty t).rolesInUse := List.not_mem_nil
  obtain ⟨value, hvalue, hbound⟩ := exists_bound (consistent_empty t) hunused hused
  have hempty : (empty t).registered.lookup role = none := rfl
  rw [beforeFirstUse_concat _ hused, hempty, Option.or_none] at hvalue
  rw [hafter] at hbound
  exact ⟨value, hvalue, hbound.expresses hb h⟩

/-- A template that is filled after a history gets, for every load, the expression of the value that
was registered for its role last before the first use of the role. If none of its roles has been
registered again since, these are the values registered last. -/
theorem fill_first_value (h : (((empty t).after calls).fill u).2 = .ok filled) :
    u.FilledBy (fun role text => ∃ value,
        latest role (beforeFirstUse (empty t) role calls) = some value ∧
          (((empty t).after calls).fill u).1.Expresses role value text) filled ∧
      ((∀ role ∈ u.loads, ∀ value,
          .register role value ∉ calls.drop (beforeFirstUse (empty t) role calls).length) →
        u.FilledBy (fun role text => ∃ value, latest role calls = some value ∧
          (((empty t).after calls).fill u).1.Expresses role value text) filled) := by
  have hfirst := (filledBy_of_fill h).mono fun role _ text => exists_first_value
  refine ⟨hfirst, ?_⟩
  intro hkept
  refine hfirst.mono ?_
  intro role hrole text hvalue
  obtain ⟨value, hvalue, hexpresses⟩ := hvalue
  refine ⟨value, ?_, hexpresses⟩
  have hsplit := List.prefix_iff_eq_append.1 (prefix_beforeFirstUse (empty t) role calls)
  rw [← hsplit, latest_append, latest_eq_none (hkept role hrole), Option.none_or, hvalue]

/-- A role is registered twice before it is used. -/
def registeredTwice : List Call :=
  [.register "N" (.scalar (.value 3)), .register "N" (.scalar (.value 4)), .fill ⟨[.load "N"]⟩]

/-- The role has its second value from its first use on. -/
theorem fill_first_value_registeredTwice :
    ∃ filled, (((empty ⟨[]⟩).after registeredTwice).fill ⟨[.load "N"]⟩).2 = .ok filled ∧
      filled = ⟨[.literal "4"]⟩ ∧
      Template.FilledBy (fun role text => ∃ value, latest role registeredTwice = some value ∧
        (((empty ⟨[]⟩).after registeredTwice).fill ⟨[.load "N"]⟩).1.Expresses role value text)
        ⟨[.load "N"]⟩ filled := by
  have hfill : (((empty ⟨[]⟩).after registeredTwice).fill ⟨[.load "N"]⟩).2 =
      .ok ⟨[.literal "4"]⟩ := by decide +kernel
  have huse : registeredTwice.drop (beforeFirstUse (empty ⟨[]⟩) "N" registeredTwice).length =
      [.fill ⟨[.load "N"]⟩] := by decide +kernel
  refine ⟨_, hfill, rfl, (fill_first_value hfill).2 ?_⟩
  intro role hrole value
  cases List.mem_singleton.1 hrole
  rw [huse]
  simp

/-- A role is registered again after it was used. -/
def registeredLate : List Call :=
  [.register "N" (.scalar (.value 3)), .fill ⟨[.load "N"]⟩, .register "N" (.scalar (.value 4))]

/-- The role keeps its first value: a later template gets 3, and not the 4 registered last. -/
theorem fill_shadowed :
    (((empty ⟨[]⟩).after registeredLate).fill ⟨[.load "N"]⟩).2 = .ok ⟨[.literal "3"]⟩ ∧
      latest "N" registeredLate = some (.scalar (.value 4)) ∧
      ¬ Template.FilledBy (fun role text => ∃ value, latest role registeredLate = some value ∧
        (((empty ⟨[]⟩).after registeredLate).fill ⟨[.load "N"]⟩).1.Expresses role value text)
        ⟨[.load "N"]⟩ ⟨[.literal "3"]⟩ := by
  refine ⟨by decide +kernel, rfl, ?_⟩
  intro h
  obtain ⟨segments, hsegments, hfilled⟩ := h
  cases hsegments with
  | cons hload hrest =>
    cases hrest
    cases hload with
    | @load _ text hvalue =>
      obtain ⟨value, hvalue, spelled, hrecords, htext⟩ := hvalue
      cases Option.some.inj hvalue
      cases hrecords with
      | slot hn => cases hn
      | value hn =>
        cases hn
        subst htext
        exact absurd hfilled (by decide +kernel)

end RoleBinder

end TensorLowering
