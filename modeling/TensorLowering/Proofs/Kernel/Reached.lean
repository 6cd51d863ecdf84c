import TensorLowering.Proofs.Kernel.History

/-!
# What a failed filling leaves behind

A template whose roles are not all registered fails before it records anything. A number that cannot
be evaluated is found later, when the roles before it have been used, and these stay in use. So the
roles in use are those that the fillings of a history have reached, whether they succeeded or not
(`RoleBinder.rolesInUse_reached`), and only while every failing filling has reached nothing new are
they the roles of the filled templates (`RoleBinder.stuck_leaves_role`).
-/

namespace TensorLowering

namespace RoleBinder

variable {b b' : RoleBinder} {role other : String} {roles seen : List String} {calls : List Call}
  {u : Template}

/-! ## Reached roles -/

/-- Whether filling a template gets past a role: the role is in use, or the number that it is
registered with can be evaluated. -/
def isUsable (b : RoleBinder) (role : String) : Bool :=
  decide (role ∈ b.rolesInUse) ||
    (b.registered.lookup role).any fun value => (b.symbols.evaluate value.number).isOk

/-- The roles that filling a template uses: none if a load is not registered, and otherwise those
before the first load that is not usable. -/
def reached (b : RoleBinder) (u : Template) : List String :=
  if u.loads.all b.isRegistered then u.loads.takeWhile b.isUsable else []

theorem isUsable_iff :
    b.isUsable role = true ↔ role ∈ b.rolesInUse ∨ ∃ value n?,
      b.registered.lookup role = some value ∧ b.symbols.evaluate value.number = .ok n? := by
  rw [isUsable, Bool.or_eq_true, decide_eq_true_iff]
  refine or_congr_right ?_
  cases b.registered.lookup role with
  | none => simp
  | some value =>
    cases hn : b.symbols.evaluate value.number <;> simp [Except.isOk, Except.toBool, hn]

/-- A role that is used is usable. -/
theorem Uses.isUsable (h : b.Uses role b') : b.isUsable role = true := by
  rw [isUsable_iff]
  cases h with
  | again hrole => exact .inl hrole
  | first hfresh hvalue hspells =>
    cases hspells with
    | known hn => exact .inr ⟨_, _, hvalue, hn⟩
    | slot hn => exact .inr ⟨_, _, hvalue, hn⟩

/-- Using one role does not change which roles are usable. -/
theorem Uses.isUsable_iff (h : b.Uses role b') :
    b'.isUsable other = true ↔ b.isUsable other = true := by
  have husable := h.isUsable
  cases h with
  | again => rfl
  | first =>
    rw [RoleBinder.isUsable_iff, RoleBinder.isUsable_iff, rolesInUse_append, List.mem_append,
      List.mem_singleton]
    refine ⟨?_, ?_⟩
    · intro h
      rcases h with (hother | hother) | hvalue
      · exact .inl hother
      · rw [hother]
        exact RoleBinder.isUsable_iff.1 husable
      · exact .inr hvalue
    · intro h
      exact h.imp_left .inl

theorem UsesAll.isUsable_iff (h : b.UsesAll roles b') :
    b'.isUsable other = true ↔ b.isUsable other = true := by
  induction h with
  | nil => rfl
  | cons huse _ ih => rw [ih, huse.isUsable_iff]

theorem UsesAll.isUsable (h : b.UsesAll roles b') : ∀ role ∈ roles, b.isUsable role = true := by
  induction h with
  | nil => exact nofun
  | cons huse _ ih =>
    refine List.forall_mem_cons.2 ⟨huse.isUsable, ?_⟩
    intro role hrole
    exact huse.isUsable_iff.1 (ih role hrole)

theorem reached_of_unregistered (h : ∃ role ∈ u.loads, b.isRegistered role = false) :
    b.reached u = [] := by
  obtain ⟨role, hrole, hunregistered⟩ := h
  refine if_neg ?_
  intro hall
  rw [List.all_eq_true.1 hall role hrole] at hunregistered
  cases hunregistered

/-- Filling a template uses the roles that it reaches, and succeeds if these are all its loads. -/
theorem fill_reached (b : RoleBinder) (u : Template) :
    b.UsesAll (b.reached u) (b.fill u).1 ∧
      ((∃ filled, (b.fill u).2 = .ok filled) ↔ b.reached u = u.loads) := by
  have houtcome := b.fill_outcome u
  generalize b.fill u = result at houtcome ⊢
  cases houtcome with
  | @unregistered role hrole hunregistered =>
    rw [reached_of_unregistered ⟨role, hrole, hunregistered⟩]
    refine ⟨.nil, iff_of_false nofun ?_⟩
    intro h
    rw [← h] at hrole
    cases hrole
  | filled hregistered huses =>
    have hall : b.reached u = u.loads := by
      rw [reached, if_pos (List.all_eq_true.2 hregistered)]
      exact List.takeWhile_eq_self_iff.2 huses.isUsable
    rw [hall]
    exact ⟨huses, iff_of_true ⟨_, rfl⟩ rfl⟩
  | @stuck b' before later role value e hregistered hloads huses hfresh hvalue he =>
    have hstuck : ¬ b.isUsable role = true := by
      rw [← huses.isUsable_iff, isUsable_iff, huses.constant.1, huses.constant.2]
      intro h
      rcases h with h | ⟨value', n?, hvalue', hn⟩
      · exact hfresh h
      · cases hvalue.symm.trans hvalue'
        cases he.symm.trans hn
    have hbefore : b.reached u = before := by
      rw [reached, if_pos (List.all_eq_true.2 hregistered), hloads,
        List.takeWhile_append_of_pos huses.isUsable, List.takeWhile_cons_of_neg hstuck,
        List.append_nil]
    rw [hbefore]
    refine ⟨huses, iff_of_false nofun ?_⟩
    intro h
    rw [hloads] at h
    exact absurd (List.self_eq_append_right.1 h) (List.cons_ne_nil _ _)

/-! ## Roles in use after a history -/

/-- The roles that the fillings of a history contribute, one after the other. -/
def collect (roles : RoleBinder → Template → List String) (b : RoleBinder) :
    List Call → List String
  | [] => []
  | .register role value :: calls => collect roles (b.register role value) calls
  | .fill u :: calls => roles b u ++ collect roles (b.fill u).1 calls

/-- The loads of a template that can be filled. -/
def filledLoads (b : RoleBinder) (u : Template) : List String :=
  if (b.fill u).2.isOk then u.loads else []

/-- The roles in use, after some were seen and one more is used. -/
theorem Uses.rolesInUse_eq (h : b.Uses role b') (hseen : b.rolesInUse = seen.eraseDups) :
    b'.rolesInUse = (seen ++ [role]).eraseDups := by
  rw [List.eraseDups_append]
  cases h with
  | again hrole =>
    rw [hseen, List.mem_eraseDups] at hrole
    rw [hseen]
    simp [List.removeAll, hrole]
  | first hfresh =>
    rw [hseen, List.mem_eraseDups] at hfresh
    rw [rolesInUse_append, hseen]
    simp [List.removeAll, List.eraseDups_cons, hfresh]

theorem UsesAll.rolesInUse_eq (h : b.UsesAll roles b') (hseen : b.rolesInUse = seen.eraseDups) :
    b'.rolesInUse = (seen ++ roles).eraseDups := by
  induction h generalizing seen with
  | nil => rw [List.append_nil, hseen]
  | cons huse _ ih =>
    rw [ih (huse.rolesInUse_eq hseen), List.append_assoc, List.singleton_append]

/-- Filling leaves bindings and slots as they were exactly if it reaches roles in use only. -/
theorem fill_same_iff :
    ((b.fill u).1.bindings = b.bindings ∧ (b.fill u).1.slots = b.slots) ↔
      ∀ role ∈ b.reached u, role ∈ b.rolesInUse := by
  obtain ⟨huses, -⟩ := b.fill_reached u
  refine ⟨?_, ?_⟩
  · intro h role hrole
    have hused := huses.used hrole
    rwa [rolesInUse, h.1] at hused
  · intro h
    rw [huses.eq_of_used h]
    exact ⟨rfl, rfl⟩

/-- If filling can only fail after reaching nothing new, it uses the loads of templates that can be
filled, and otherwise nothing. -/
theorem usesAll_filledLoads (h : ∀ e, (b.fill u).2 = .error e → ∀ role ∈ b.reached u,
    role ∈ b.rolesInUse) : b.UsesAll (b.filledLoads u) (b.fill u).1 := by
  obtain ⟨huses, hreached⟩ := b.fill_reached u
  cases hresult : (b.fill u).2 with
  | ok filled =>
    rw [filledLoads, hresult, ← hreached.1 ⟨filled, hresult⟩]
    exact huses
  | error e =>
    rw [filledLoads, hresult, huses.eq_of_used (h e hresult)]
    exact .nil

/-- If every filling of a history uses the roles it contributes, then these are in use after it. -/
theorem rolesInUse_collect {contributed : RoleBinder → Template → List String}
    (hfill : ∀ before u later, calls = before ++ .fill u :: later →
      (b.after before).UsesAll (contributed (b.after before) u) ((b.after before).fill u).1)
    (hseen : b.rolesInUse = seen.eraseDups) :
    (b.after calls).rolesInUse = (seen ++ collect contributed b calls).eraseDups := by
  induction calls generalizing b seen with
  | nil => rw [collect, List.append_nil, ← hseen, after, List.foldl_nil]
  | cons call calls ih =>
    have hrest : ∀ {later : List String}, (call.run b).rolesInUse = later.eraseDups →
        ((call.run b).after calls).rolesInUse =
          (later ++ collect contributed (call.run b) calls).eraseDups := by
      refine ih ?_
      intro before u later hcalls
      exact hfill (call :: before) u later (congrArg (call :: ·) hcalls)
    cases call with
    | register role value => exact hrest hseen
    | fill u =>
      have huses : b.UsesAll (contributed b u) (b.fill u).1 := hfill [] u calls rfl
      rw [collect, ← List.append_assoc]
      exact hrest (huses.rolesInUse_eq hseen)

/-- After every history the roles in use are those that its fillings have reached, each once and in
the order of first use, and slots belong to these. A filling succeeds exactly if it reaches all
loads of the template. One that fails leaves bindings and slots as they were exactly if it reaches
nothing but roles in use; for want of a registered role it reaches none. If every failing filling of
the history has reached nothing but roles in use, then these are the loads of the templates that
were filled. -/
theorem rolesInUse_reached (t : SymbolTable) (calls : List Call) :
    ((empty t).after calls).rolesInUse = (collect reached (empty t) calls).eraseDups ∧
      (∀ slot ∈ ((empty t).after calls).slots, slot.role ∈ collect reached (empty t) calls) ∧
      (∀ u, (∃ filled, (((empty t).after calls).fill u).2 = .ok filled) ↔
        ((empty t).after calls).reached u = u.loads) ∧
      (∀ u e, (((empty t).after calls).fill u).2 = .error e →
        ((((empty t).after calls).fill u).1.bindings = ((empty t).after calls).bindings ∧
            (((empty t).after calls).fill u).1.slots = ((empty t).after calls).slots ↔
          ∀ role ∈ ((empty t).after calls).reached u, role ∈ ((empty t).after calls).rolesInUse) ∧
        ∀ role registered, e = .unknownRole role registered →
          ((empty t).after calls).reached u = []) ∧
      ((∀ before u later e, calls = before ++ .fill u :: later →
          (((empty t).after before).fill u).2 = .error e →
          ∀ role ∈ ((empty t).after before).reached u,
            role ∈ ((empty t).after before).rolesInUse) →
        ((empty t).after calls).rolesInUse = (collect filledLoads (empty t) calls).eraseDups ∧
          ∀ slot ∈ ((empty t).after calls).slots,
            slot.role ∈ collect filledLoads (empty t) calls) := by
  have hslots : ∀ {roles : List String},
      ((empty t).after calls).rolesInUse = roles.eraseDups →
      ∀ slot ∈ ((empty t).after calls).slots, slot.role ∈ roles := by
    intro roles hroles slot hslot
    have hconsistent : ((empty t).after calls).Consistent := Reachable.consistent ⟨t, calls, rfl⟩
    rw [← List.mem_eraseDups, ← hroles]
    exact hconsistent.slot_role slot hslot
  have hreached : ((empty t).after calls).rolesInUse =
      ([] ++ collect reached (empty t) calls).eraseDups := by
    refine rolesInUse_collect ?_ rfl
    intro before u later _
    exact (((empty t).after before).fill_reached u).1
  refine ⟨hreached, hslots hreached, fun u => (((empty t).after calls).fill_reached u).2, ?_, ?_⟩
  · intro u e he
    refine ⟨fill_same_iff, ?_⟩
    intro role registered hrole
    subst hrole
    exact reached_of_unregistered (fill_unknownRole_iff.1 ⟨role, registered, he⟩)
  · intro hfailing
    have hfilled : ((empty t).after calls).rolesInUse =
        ([] ++ collect filledLoads (empty t) calls).eraseDups := by
      refine rolesInUse_collect ?_ rfl
      intro before u later hcalls
      refine usesAll_filledLoads ?_
      intro e he
      exact hfailing before u later e hcalls he
    exact ⟨hfilled, hslots hfilled⟩

/-- A role that is a number, and one that divides by zero. -/
def divisionByZero : List Call :=
  [.register "A" (.scalar (.value 4)),
    .register "B" (.scalar (.floorDiv (.value 1) (.value 0)))]

/-- A template that loads both cannot be filled, and the first role is in use after it. -/
theorem stuck_leaves_role :
    ((empty ⟨[]⟩).after divisionByZero).bindings = [] ∧
      (((empty ⟨[]⟩).after divisionByZero).fill ⟨[.load "A", .load "B"]⟩).2 =
        .error (.unsupported (.expression "1 // 0") (.notEvaluable 1 .floorDiv 0)) ∧
      (((empty ⟨[]⟩).after divisionByZero).fill ⟨[.load "A", .load "B"]⟩).1.bindings =
        [⟨"A", none, none, "4"⟩] := by
  refine ⟨rfl, ?_, ?_⟩
  all_goals decide +kernel

end RoleBinder

end TensorLowering
