import TensorLowering.Proofs.Kernel.Filling
import TensorLowering.Proofs.Symbol.Failure

/-!
# What filling a template records

Filling a template uses the roles that it loads, one after the other, and may fail at any of them;
what was recorded up to there stays. What using one role can do to a binder is listed once
(`RoleBinder.Uses`), and how filling a template can end as well (`RoleBinder.Outcome`): at a role
that is not registered, with all roles used, or at a role whose number cannot be evaluated after the
roles before it were used. Every run ends in one of these ways (`RoleBinder.fill_outcome`).
-/

namespace TensorLowering

/-! ## Steps that fail -/

namespace Filling

variable {α β : Type} {b b' : RoleBinder} {a : α} {e : LoweringError}

/-- The step fails with an error and leaves a binder behind. -/
def Fails (x : Filling α) (b : RoleBinder) (e : LoweringError) (b' : RoleBinder) : Prop :=
  x.run b = (.error e, b')

/-- A step succeeds or fails. -/
theorem yields_or_fails (x : Filling α) (b : RoleBinder) :
    (∃ a b', Yields x b a b') ∨ ∃ e b', Fails x b e b' := by
  rcases hrun : x.run b with ⟨e | a, b'⟩
  · exact .inr ⟨e, b', hrun⟩
  · exact .inl ⟨a, b', hrun⟩

theorem not_fails_pure : ¬ Fails (pure a : Filling α) b e b' := by
  intro h
  cases h

theorem fails_throw {e' : LoweringError} :
    Fails (throw e' : Filling α) b e b' ↔ e' = e ∧ b = b' := by
  change (Except.error e', b) = (Except.error e, b') ↔ _
  simp

/-- A sequence fails when its first step does, or its second one where the first has led. -/
theorem fails_bind {x : Filling α} {f : α → Filling β} :
    Fails (x >>= f) b e b' ↔
      Fails x b e b' ∨ ∃ a b₁, Yields x b a b₁ ∧ Fails (f a) b₁ e b' := by
  have hrun : (x >>= f).run b = match x.run b with
      | (r, b₁) => ExceptT.bindCont f r b₁ := rfl
  unfold Fails Yields
  rw [hrun]
  rcases x.run b with ⟨e' | a, b₁⟩
  · refine ⟨?_, ?_⟩
    · intro h
      cases h
      exact .inl rfl
    · intro h
      rcases h with h | ⟨a, b₂, h, -⟩
      · cases h
        rfl
      · cases h
  · refine ⟨fun h => .inr ⟨a, b₁, rfl, h⟩, ?_⟩
    intro h
    rcases h with h | ⟨a', b₂, h, hf⟩
    · cases h
    · cases h
      exact hf

theorem fails_get {f : RoleBinder → Filling β} :
    Fails (get >>= f) b e b' ↔ Fails (f b) b e b' := Iff.rfl

theorem fails_lift {x : Lowering α} {f : α → Filling β} :
    Fails (liftM x >>= f) b e b' ↔
      (x = .error e ∧ b = b') ∨ ∃ a, x = .ok a ∧ Fails (f a) b e b' := by
  rw [fails_bind]
  simp only [yields_lift]
  refine or_congr ?_ ?_
  · change (x, b) = (Except.error e, b') ↔ _
    simp
  · refine exists_congr fun a => ?_
    refine ⟨?_, fun h => ⟨b, ⟨h.1, rfl⟩, h.2⟩⟩
    intro h
    obtain ⟨_, ⟨hx, rfl⟩, hf⟩ := h
    exact ⟨hx, hf⟩

end Filling

open Filling RoleBinder

/-! ## Using a role -/

namespace RoleBinder

variable {b b' b₁ : RoleBinder} {role text : String} {roles others : List String}
  {value : RoleValue} {extent : Extent} {e : LoweringError}

/-- The roles in use, in the order of their first use. -/
def rolesInUse (b : RoleBinder) : List String := b.bindings.map Binding.role

/-- The text is the expression of a role in use. -/
def HasExpression (b : RoleBinder) (role text : String) : Prop :=
  ∃ binding ∈ b.bindings, binding.role = role ∧ binding.expression = text

/-- What using a role does: a role in use stays as it is, and any other is bound to the value that
it is registered with. -/
inductive Uses (b : RoleBinder) (role : String) : RoleBinder → Prop
  | again (hrole : role ∈ b.rolesInUse) : Uses b role b
  | first {value : RoleValue} {spelled : String} {slots : List MetadataSlot}
      (hfresh : role ∉ b.rolesInUse) (hvalue : b.registered.lookup role = some value)
      (hspells : Spells b.symbols b.slots role value.number spelled slots) :
    Uses b role { b with slots, bindings := b.bindings ++ [value.binding role spelled] }

/-- Roles are used one after the other. -/
inductive UsesAll : RoleBinder → List String → RoleBinder → Prop
  | nil {b : RoleBinder} : UsesAll b [] b
  | cons {b b₁ b' : RoleBinder} {role : String} {roles : List String} (hrole : b.Uses role b₁)
      (hroles : UsesAll b₁ roles b') : UsesAll b (role :: roles) b'

theorem isRegistered_iff :
    b.isRegistered role = true ↔ ∃ value, b.registered.lookup role = some value := by
  rw [← Option.isSome_iff_exists, isRegistered]
  induction b.registered with
  | nil => simp
  | cons entry rest ih =>
    rw [List.any_cons, Bool.or_eq_true, ih, List.lookup_cons, BEq.comm]
    cases role == entry.1 <;> simp

/-- What every use of a role keeps, the use of many keeps. -/
theorem UsesAll.invariant {P : RoleBinder → Prop}
    (step : ∀ {b b' : RoleBinder} {role : String}, P b → b.Uses role b' → P b')
    (h : b.UsesAll roles b') (hb : P b) : P b' := by
  induction h with
  | nil => exact hb
  | cons hrole _ ih => exact ih (step hb hrole)

theorem UsesAll.append (h : b.UsesAll roles b₁) (h' : b₁.UsesAll others b') :
    b.UsesAll (roles ++ others) b' := by
  induction h with
  | nil => exact h'
  | cons hrole _ ih => exact .cons hrole (ih h')

/-- Using roles changes neither the table nor what roles are registered with. -/
theorem UsesAll.constant (h : b.UsesAll roles b') :
    b'.symbols = b.symbols ∧ b'.registered = b.registered := by
  refine h.invariant (P := fun c => c.symbols = b.symbols ∧ c.registered = b.registered) ?_
    ⟨rfl, rfl⟩
  intro c c' role hc huse
  cases huse <;> exact hc

/-- Bindings are only added. -/
theorem UsesAll.prefix_bindings (h : b.UsesAll roles b') : b.bindings <+: b'.bindings := by
  refine h.invariant (P := fun c => b.bindings <+: c.bindings) ?_ (List.prefix_refl _)
  intro c c' role hc huse
  cases huse with
  | again => exact hc
  | first => exact hc.trans (List.prefix_append _ _)

theorem UsesAll.mem_rolesInUse (h : b.UsesAll roles b') (hrole : role ∈ b.rolesInUse) :
    role ∈ b'.rolesInUse :=
  (h.prefix_bindings.map Binding.role).subset hrole

/-- The expression of a role in use never changes. -/
theorem UsesAll.hasExpression (h : b.UsesAll roles b') (hrole : b.HasExpression role text) :
    b'.HasExpression role text := by
  obtain ⟨binding, hbinding, hrole⟩ := hrole
  exact ⟨binding, h.prefix_bindings.subset hbinding, hrole⟩

theorem Uses.mem_rolesInUse (h : b.Uses role b') : role ∈ b'.rolesInUse := by
  cases h with
  | again hrole => exact hrole
  | first => simp [rolesInUse, RoleValue.binding_role]

/-- Used roles are in use. -/
theorem UsesAll.used (h : b.UsesAll roles b') (hrole : role ∈ roles) : role ∈ b'.rolesInUse := by
  induction h with
  | nil => cases hrole
  | cons huse hrest ih =>
    rcases List.mem_cons.1 hrole with rfl | hrole
    · exact hrest.mem_rolesInUse huse.mem_rolesInUse
    · exact ih hrole

/-- Using roles that are in use already changes nothing. -/
theorem UsesAll.eq_of_used (h : b.UsesAll roles b') (hroles : ∀ role ∈ roles, role ∈ b.rolesInUse) :
    b' = b := by
  induction h with
  | nil => rfl
  | cons huse _ ih =>
    obtain ⟨hrole, hroles⟩ := List.forall_mem_cons.1 hroles
    cases huse with
    | again => exact ih hroles
    | first hfresh => exact absurd hrole hfresh

/-! ### The step that uses a role -/

theorem fails_extentExpression :
    Fails (extentExpression role extent) b e b' ↔
      b.symbols.evaluate extent = .error e ∧ b = b' := by
  rw [extentExpression, fails_get, fails_lift]
  refine or_iff_left ?_
  intro h
  obtain ⟨n?, -, h⟩ := h
  cases n? <;> cases h

theorem fails_bindingOf :
    Fails (bindingOf role value) b e b' ↔
      b.symbols.evaluate value.number = .error e ∧ b = b' := by
  rw [bindingOf_eq, fails_bind, ← fails_extentExpression]
  refine or_iff_left ?_
  intro h
  obtain ⟨text, b₁, -, h⟩ := h
  exact not_fails_pure h

/-- A role whose expression is found is used, and has that expression from then on. -/
theorem uses_of_yields (h : Yields (expression role) b text b') :
    b.Uses role b' ∧ b'.HasExpression role text := by
  cases hfind : b.bindings.find? (·.role == role) with
  | some binding =>
    simp only [expression, yields_bind, yields_get] at h
    obtain ⟨_, _, ⟨rfl, rfl⟩, h⟩ := h
    rw [hfind] at h
    obtain ⟨rfl, rfl⟩ := yields_pure.1 h
    have hbinding := List.mem_of_find?_eq_some hfind
    have hrole : (binding.role == role) = true := List.find?_some (a := binding) hfind
    have hrole : binding.role = role := eq_of_beq hrole
    exact ⟨.again (List.mem_map.2 ⟨binding, hbinding, hrole⟩), binding, hbinding, hrole, rfl⟩
  | none =>
    have hfresh : role ∉ b.rolesInUse := find?_binding_eq_none.1 hfind
    cases hvalue : b.registered.lookup role with
    | none =>
      simp only [expression, yields_bind, yields_get] at h
      obtain ⟨_, _, ⟨rfl, rfl⟩, h⟩ := h
      rw [hfind, hvalue] at h
      exact absurd h yields_throw
    | some value =>
      obtain ⟨spelled, slots, hspells, rfl, rfl⟩ := (yields_expression hfresh hvalue).1 h
      exact ⟨.first hfresh hvalue hspells, value.binding role spelled, by simp,
        value.binding_role role spelled, rfl⟩

/-- A role whose expression is not found is not in use, and its number cannot be evaluated if it is
registered. -/
theorem stuck_of_fails (h : Fails (expression role) b e b') :
    b' = b ∧ role ∉ b.rolesInUse ∧
      ∀ value, b.registered.lookup role = some value →
        b.symbols.evaluate value.number = .error e := by
  rw [expression, fails_get] at h
  cases hfind : b.bindings.find? (·.role == role) with
  | some binding =>
    rw [hfind] at h
    exact absurd h not_fails_pure
  | none =>
    have hfresh : role ∉ b.rolesInUse := find?_binding_eq_none.1 hfind
    rw [hfind] at h
    cases hvalue : b.registered.lookup role with
    | none =>
      rw [hvalue] at h
      obtain ⟨-, rfl⟩ := fails_throw.1 h
      exact ⟨rfl, hfresh, fun value hvalue => by cases hvalue⟩
    | some value =>
      rw [hvalue] at h
      rcases fails_bind.1 h with h | ⟨binding, b₁, -, h⟩
      · obtain ⟨he, rfl⟩ := fails_bindingOf.1 h
        refine ⟨rfl, hfresh, ?_⟩
        intro value' hvalue'
        cases hvalue'
        exact he
      · cases h

end RoleBinder

/-! ## Filling segments -/

/-- The roles that a template loads, in the order of its text. -/
def Template.loads (t : Template) : List String := t.segments.filterMap Segment.role?

/-- A segment is filled: a load becomes a text that belongs to its role, the metadata buffer its
name, and everything else stays as it is. -/
inductive Segment.FilledBy (texts : String → String → Prop) : Segment → Segment → Prop
  | literal (text : String) : FilledBy texts (.literal text) (.literal text)
  | functionName : FilledBy texts .functionName .functionName
  | metaBuffer : FilledBy texts .metaBuffer (.literal metadataPointer)
  | load {role text : String} (h : texts role text) : FilledBy texts (.load role) (.literal text)

/-- The template is filled with texts that belong to its roles, and brought into normal form. -/
def Template.FilledBy (texts : String → String → Prop) (t filled : Template) : Prop :=
  ∃ segments, List.Forall₂ (Segment.FilledBy texts) t.segments segments ∧
    filled = .ofSegments segments

namespace Segment

variable {b b' : RoleBinder} {s s' : Segment} {segments filled : List Segment} {e : LoweringError}
  {texts texts' : String → String → Prop}

theorem FilledBy.mono (h : s.FilledBy texts s')
    (htexts : ∀ role text, s.role? = some role → texts role text → texts' role text) :
    s.FilledBy texts' s' := by
  cases h with
  | literal text => exact .literal text
  | functionName => exact .functionName
  | metaBuffer => exact .metaBuffer
  | load hload => exact .load (htexts _ _ rfl hload)

theorem yields_fillSegment (h : Yields (fillSegment s) b s' b') :
    b.UsesAll s.role?.toList b' ∧ s.FilledBy b'.HasExpression s' := by
  cases s with
  | literal text =>
    obtain ⟨rfl, rfl⟩ := yields_pure.1 h
    exact ⟨.nil, .literal text⟩
  | functionName =>
    obtain ⟨rfl, rfl⟩ := yields_pure.1 h
    exact ⟨.nil, .functionName⟩
  | metaBuffer =>
    obtain ⟨rfl, rfl⟩ := yields_pure.1 h
    exact ⟨.nil, .metaBuffer⟩
  | load role =>
    obtain ⟨text, b₁, htext, h⟩ := yields_bind.1 h
    obtain ⟨rfl, rfl⟩ := yields_pure.1 h
    obtain ⟨huse, hexpression⟩ := uses_of_yields htext
    exact ⟨.cons huse .nil, .load hexpression⟩

/-- Only a load can fail, and it fails with its role. -/
theorem fails_fillSegment (h : Fails (fillSegment s) b e b') :
    ∃ role, s.role? = some role ∧ Fails (expression role) b e b' := by
  cases s with
  | literal | functionName | metaBuffer => exact absurd h not_fails_pure
  | load role =>
    rcases fails_bind.1 h with h | ⟨text, b₁, -, h⟩
    · exact ⟨role, rfl, h⟩
    · exact absurd h not_fails_pure

theorem role?_cons (s : Segment) (segments : List Segment) :
    (s :: segments).filterMap role? = s.role?.toList ++ segments.filterMap role? := by
  rw [List.filterMap_cons]
  cases s.role? <;> rfl

/-- Filled segments have used all their roles, and have the expressions of these in the place of
loads. -/
theorem yields_fillSegments (h : Yields (segments.mapM fillSegment) b filled b') :
    b.UsesAll (segments.filterMap role?) b' ∧
      List.Forall₂ (FilledBy b'.HasExpression) segments filled := by
  induction segments generalizing b filled with
  | nil =>
    obtain ⟨rfl, rfl⟩ := yields_pure.1 h
    exact ⟨.nil, .nil⟩
  | cons s segments ih =>
    rw [List.mapM_cons] at h
    obtain ⟨s', b₁, hs, h⟩ := yields_bind.1 h
    obtain ⟨rest, b₂, hrest, h⟩ := yields_bind.1 h
    obtain ⟨rfl, rfl⟩ := yields_pure.1 h
    obtain ⟨huses, hfilled⟩ := yields_fillSegment hs
    obtain ⟨huses', hfilled'⟩ := ih hrest
    rw [role?_cons]
    refine ⟨huses.append huses', .cons (hfilled.mono ?_) hfilled'⟩
    intro role text _ htext
    exact huses'.hasExpression htext

/-- Segments that cannot be filled have used the roles before the one that fails. -/
theorem fails_fillSegments (h : Fails (segments.mapM fillSegment) b e b') :
    ∃ before role after, segments.filterMap role? = before ++ role :: after ∧
      b.UsesAll before b' ∧ Fails (expression role) b' e b' := by
  induction segments generalizing b with
  | nil => exact absurd h not_fails_pure
  | cons s segments ih =>
    rw [role?_cons]
    rw [List.mapM_cons] at h
    rcases fails_bind.1 h with h | ⟨s', b₁, hs, h⟩
    · obtain ⟨role, hrole, h⟩ := fails_fillSegment h
      obtain ⟨rfl, -⟩ := stuck_of_fails h
      exact ⟨[], role, segments.filterMap role?, by rw [hrole]; rfl, .nil, h⟩
    · rcases fails_bind.1 h with h | ⟨rest, b₂, -, h⟩
      · obtain ⟨before, role, after, hroles, huses, h⟩ := ih h
        have huse := (yields_fillSegment hs).1
        refine ⟨s.role?.toList ++ before, role, after, ?_, huse.append huses, h⟩
        rw [hroles, List.append_assoc]
      · exact absurd h not_fails_pure

end Segment

theorem Template.FilledBy.mono {texts texts' : String → String → Prop} {t filled : Template}
    (h : t.FilledBy texts filled)
    (htexts : ∀ role ∈ t.loads, ∀ text, texts role text → texts' role text) :
    t.FilledBy texts' filled := by
  obtain ⟨segments, hsegments, rfl⟩ := h
  refine ⟨segments, ?_, rfl⟩
  rw [List.forall₂_iff_get] at hsegments ⊢
  refine ⟨hsegments.1, ?_⟩
  intro k hk hk'
  refine (hsegments.2 k hk hk').mono ?_
  intro role text hrole
  exact htexts role (List.mem_filterMap.2 ⟨_, List.get_mem _ _, hrole⟩) text

/-! ## How filling a template ends -/

namespace RoleBinder

variable {b b' : RoleBinder} {t : Template} {e : LoweringError}

/-- The ways in which filling a template can end, with the binder that is left. -/
inductive Outcome (b : RoleBinder) (t : Template) : RoleBinder × Lowering Template → Prop
  /-- A role that is not registered is found before anything is recorded. -/
  | unregistered {role : String} (hrole : role ∈ t.loads) (h : b.isRegistered role = false) :
    Outcome b t (b, .error (.unknownRole role (b.registered.map Prod.fst)))
  /-- All roles are used, and the template is filled with their expressions. -/
  | filled {b' : RoleBinder} {filled : Template}
      (hregistered : ∀ role ∈ t.loads, b.isRegistered role = true) (huses : b.UsesAll t.loads b')
      (hfilled : t.FilledBy b'.HasExpression filled) : Outcome b t (b', .ok filled)
  /-- The number of a role cannot be evaluated, after the roles before it were used. -/
  | stuck {b' : RoleBinder} {before after : List String} {role : String} {value : RoleValue}
      {e : LoweringError} (hregistered : ∀ role ∈ t.loads, b.isRegistered role = true)
      (hloads : t.loads = before ++ role :: after) (huses : b.UsesAll before b')
      (hfresh : role ∉ b'.rolesInUse) (hvalue : b.registered.lookup role = some value)
      (he : b.symbols.evaluate value.number = .error e) : Outcome b t (b', .error e)

theorem fill_eq_iff {r : Lowering Template} :
    b.fill t = (b', r) ↔ (fillTemplate t).run b = (r, b') := by
  rw [b.fill_eq_run]
  rcases (fillTemplate t).run b with ⟨r', b₁⟩
  refine ⟨?_, ?_⟩
  · intro h
    cases h
    rfl
  · intro h
    cases h
    rfl

theorem fill_eq_ok {filled : Template} :
    b.fill t = (b', .ok filled) ↔ Yields (fillTemplate t) b filled b' := fill_eq_iff

theorem fill_eq_error : b.fill t = (b', .error e) ↔ Fails (fillTemplate t) b e b' := fill_eq_iff

/-- Filling a template fails at a role that is not registered, or while its segments are filled. -/
theorem fails_fillTemplate (h : Fails (fillTemplate t) b e b') :
    (∃ role ∈ t.loads, b.isRegistered role = false ∧
        e = .unknownRole role (b.registered.map Prod.fst) ∧ b' = b) ∨
      (∀ role ∈ t.loads, b.isRegistered role = true) ∧
        Fails (t.segments.mapM fillSegment) b e b' := by
  rw [fillTemplate, fails_get] at h
  cases hfind : t.roles.find? (!b.isRegistered ·) with
  | some role =>
    rw [hfind] at h
    obtain ⟨rfl, rfl⟩ := fails_throw.1 h
    have hrole : role ∈ t.roles := List.mem_of_find?_eq_some hfind
    have hunregistered : (!b.isRegistered role) = true := List.find?_some (a := role) hfind
    exact .inl ⟨role, List.mem_eraseDups.1 hrole, by simpa using hunregistered, rfl, rfl⟩
  | none =>
    rw [hfind] at h
    refine .inr ⟨?_, ?_⟩
    · intro role hrole
      simpa using List.find?_eq_none.1 hfind role (List.mem_eraseDups.2 hrole)
    · rcases fails_bind.1 h with h | ⟨segments, b₁, -, h⟩
      · exact h
      · exact absurd h not_fails_pure

/-- Filling a template ends in one of the three ways. -/
theorem fill_outcome (b : RoleBinder) (t : Template) : b.Outcome t (b.fill t) := by
  rcases yields_or_fails (fillTemplate t) b with ⟨filled, b', h⟩ | ⟨e, b', h⟩
  · rw [fill_eq_ok.2 h]
    obtain ⟨hregistered, segments, hsegments, rfl⟩ := yields_fillTemplate.1 h
    obtain ⟨huses, hfilled⟩ := Segment.yields_fillSegments hsegments
    exact .filled hregistered huses ⟨segments, hfilled, rfl⟩
  · rw [fill_eq_error.2 h]
    rcases fails_fillTemplate h with ⟨role, hrole, hunregistered, rfl, rfl⟩ | ⟨hregistered, h⟩
    · exact .unregistered hrole hunregistered
    · obtain ⟨before, role, after, hloads, huses, h⟩ := Segment.fails_fillSegments h
      obtain ⟨-, hfresh, hstuck⟩ := stuck_of_fails h
      have hrole : role ∈ t.loads := by
        rw [Template.loads, hloads]
        exact List.mem_append_right _ List.mem_cons_self
      obtain ⟨value, hvalue⟩ := isRegistered_iff.1 (hregistered role hrole)
      have he : b'.symbols.evaluate value.number = .error e := hstuck value (by
        rw [huses.constant.2, hvalue])
      rw [huses.constant.1] at he
      exact .stuck hregistered hloads huses hfresh hvalue he

/-! ### What the ending says -/

/-- Filling a template fails for want of a role exactly if one of its loads is not registered. -/
theorem fill_unknownRole_iff :
    (∃ role registered, (b.fill t).2 = .error (.unknownRole role registered)) ↔
      ∃ role ∈ t.loads, b.isRegistered role = false := by
  have houtcome := b.fill_outcome t
  generalize b.fill t = result at houtcome
  refine ⟨?_, ?_⟩
  · intro h
    obtain ⟨role', registered, h⟩ := h
    cases houtcome with
    | @unregistered role hrole hunregistered => exact ⟨role, hrole, hunregistered⟩
    | filled => cases h
    | stuck _ _ _ _ _ he =>
      -- An evaluation fails at a symbol or at an operation, and knows of no roles.
      cases h
      rcases SymbolTable.fault_of_evaluate he with ⟨k, hk⟩ | ⟨text, x, op, y, hk⟩
      · cases hk
      · cases hk
  · intro h
    obtain ⟨role, hrole, hunregistered⟩ := h
    cases houtcome with
    | @unregistered role' => exact ⟨role', _, rfl⟩
    | filled hregistered | stuck hregistered =>
      rw [hregistered role hrole] at hunregistered
      cases hunregistered

/-- A template with a load that is not registered leaves the binder as it was. -/
theorem fill_of_unregistered (h : ∃ role ∈ t.loads, b.isRegistered role = false) :
    (b.fill t).1 = b := by
  obtain ⟨role, hrole, hunregistered⟩ := h
  have houtcome := b.fill_outcome t
  generalize b.fill t = result at houtcome ⊢
  cases houtcome with
  | unregistered => rfl
  | filled hregistered | stuck hregistered =>
    rw [hregistered role hrole] at hunregistered
    cases hunregistered

/-- A filled template has the expressions of roles in the place of loads. -/
theorem filledBy_of_fill {filled : Template} (h : (b.fill t).2 = .ok filled) :
    t.FilledBy (b.fill t).1.HasExpression filled := by
  have houtcome := b.fill_outcome t
  generalize b.fill t = result at houtcome h ⊢
  cases houtcome with
  | unregistered | stuck => cases h
  | filled _ _ hfilled =>
    cases h
    exact hfilled

end RoleBinder

end TensorLowering
