import Mathlib.Data.List.Forall2
import TensorLowering.Kernel.Basic
import TensorLowering.Proofs.Symbol.Evaluation

/-!
# What filling a template yields

A step of filling in that succeeds takes one binder to another (`Filling.Yields`). What it puts in
the place of a role is read off the role's value (`RoleBinder.yields_expression`), and a filled
template is the filled segments side by side, in whatever way literals were joined before
(`Template.renders_ofSegments`). So an instantiated kernel is the text of the segments of its
template (`Kernel.instantiate_eq_ok`).
-/

namespace TensorLowering

/-! ## Steps that succeed -/

namespace Filling

variable {α β : Type} {b b' b'' : RoleBinder} {a : α}

/-- The step succeeds with a result and leaves a binder behind. -/
def Yields (x : Filling α) (b : RoleBinder) (a : α) (b' : RoleBinder) : Prop :=
  x.run b = (.ok a, b')

theorem yields_pure {a' : α} : Yields (pure a') b a b' ↔ a' = a ∧ b = b' := by
  change (Except.ok a', b) = (Except.ok a, b') ↔ _
  simp

theorem yields_bind {x : Filling α} {f : α → Filling β} {c : β} :
    Yields (x >>= f) b c b'' ↔ ∃ a b', Yields x b a b' ∧ Yields (f a) b' c b'' := by
  have hrun : (x >>= f).run b = match x.run b with
      | (r, b') => ExceptT.bindCont f r b' := rfl
  unfold Yields
  rw [hrun]
  rcases x.run b with ⟨e | a, b'⟩
  · constructor
    · intro h
      cases h
    · rintro ⟨a, b₁, h, -⟩
      cases h
  · constructor
    · intro h
      exact ⟨a, b', rfl, h⟩
    · rintro ⟨a', b₁, h, hf⟩
      cases h
      exact hf

theorem yields_get {r : RoleBinder} : Yields get b r b' ↔ b = r ∧ b = b' := by
  change (Except.ok b, b) = (Except.ok r, b') ↔ _
  simp

theorem yields_set {r : RoleBinder} {u : PUnit} : Yields (set r) b u b' ↔ r = b' := by
  change (Except.ok PUnit.unit, r) = (Except.ok u, b') ↔ _
  simp

theorem yields_modify {f : RoleBinder → RoleBinder} {u : PUnit} :
    Yields (modify f) b u b' ↔ f b = b' := by
  change (Except.ok PUnit.unit, f b) = (Except.ok u, b') ↔ _
  simp

theorem yields_lift {x : Lowering α} : Yields (liftM x) b a b' ↔ x = .ok a ∧ b = b' := by
  change (x, b) = (Except.ok a, b') ↔ _
  simp

theorem yields_throw {e : LoweringError} : ¬ Yields (throw e : Filling α) b a b' := by
  change ¬ (Except.error e, b) = (Except.ok a, b')
  simp

end Filling

open Filling

/-! ## Expressions of roles -/

/-- The number that a value depends on: the offset of a region, or the extent itself. -/
def RoleValue.number : RoleValue → Extent
  | .region a => a.offset
  | .scalar extent => extent

/-- The binding of a role to a value whose number is spelled by a text. -/
def RoleValue.binding (role text : String) : RoleValue → Binding
  | .region a =>
    ⟨role, some a.name, some a.space, "((float *)(" ++ a.space.pointer ++ " + " ++ text ++ "))"⟩
  | .scalar _ => ⟨role, none, none, text⟩

theorem RoleValue.binding_role (role text : String) (value : RoleValue) :
    (value.binding role text).role = role := by
  cases value <;> rfl

/-- How a number is spelled when some slots of the metadata buffer are in use: by its value, or, if
it is not known yet, by a new slot. -/
inductive Spells (t : SymbolTable) (slots : List MetadataSlot) (role : String) (extent : Extent) :
    String → List MetadataSlot → Prop
  | known {n : Int64} (hn : t.Evaluates extent n) :
    Spells t slots role extent (toString n.toInt) slots
  | slot (hn : t.evaluate extent = .ok none) :
    Spells t slots role extent (RoleBinder.slotExpression slots.length)
      (slots ++ [⟨slots.length, role, extent, t.render extent⟩])

namespace RoleBinder

variable {b b' : RoleBinder} {role text : String} {extent : Extent} {value : RoleValue}

theorem yields_extentExpression :
    Yields (extentExpression role extent) b text b' ↔
      ∃ slots, Spells b.symbols b.slots role extent text slots ∧ { b with slots } = b' := by
  simp only [extentExpression, yields_bind, yields_get, yields_lift]
  constructor
  · rintro ⟨_, _, ⟨rfl, rfl⟩, n?, _, ⟨hn, rfl⟩, h⟩
    cases n? with
    | some n =>
      obtain ⟨rfl, rfl⟩ := yields_pure.1 h
      exact ⟨b.slots, .known hn, rfl⟩
    | none =>
      obtain ⟨_, _, hset, h⟩ := yields_bind.1 h
      cases yields_set.1 hset
      obtain ⟨rfl, rfl⟩ := yields_pure.1 h
      exact ⟨_, .slot hn, rfl⟩
  · rintro ⟨slots, hspells, rfl⟩
    cases hspells with
    | @known n hn => exact ⟨b, b, ⟨rfl, rfl⟩, some n, b, ⟨hn, rfl⟩, yields_pure.2 ⟨rfl, rfl⟩⟩
    | slot hn =>
      refine ⟨b, b, ⟨rfl, rfl⟩, none, b, ⟨hn, rfl⟩, ?_⟩
      exact yields_bind.2 ⟨(), _, yields_set.2 rfl, yields_pure.2 ⟨rfl, rfl⟩⟩

/-- A role is bound by spelling the number of its value. -/
theorem bindingOf_eq (role : String) (value : RoleValue) :
    bindingOf role value =
      extentExpression role value.number >>= fun text => pure (value.binding role text) := by
  cases value <;> rfl

theorem yields_bindingOf {binding : Binding} :
    Yields (bindingOf role value) b binding b' ↔
      ∃ text, Yields (extentExpression role value.number) b text b' ∧
        value.binding role text = binding := by
  rw [bindingOf_eq, yields_bind]
  constructor
  · rintro ⟨text, _, htext, h⟩
    obtain ⟨hbinding, rfl⟩ := yields_pure.1 h
    exact ⟨text, htext, hbinding⟩
  · rintro ⟨text, htext, h⟩
    exact ⟨text, b', htext, yields_pure.2 ⟨h, rfl⟩⟩

/-- No binding is found for a role that is not in use. -/
theorem find?_binding_eq_none :
    b.bindings.find? (·.role == role) = none ↔ role ∉ b.bindings.map Binding.role := by
  simp [List.find?_eq_none]

/-- At its first use a role is bound to its value. -/
theorem yields_expression (hfresh : role ∉ b.bindings.map Binding.role)
    (hvalue : b.registered.lookup role = some value) :
    Yields (expression role) b text b' ↔
      ∃ spelled slots, Spells b.symbols b.slots role value.number spelled slots ∧
        (value.binding role spelled).expression = text ∧
        { b with slots, bindings := b.bindings ++ [value.binding role spelled] } = b' := by
  have hnone : b.bindings.find? (·.role == role) = none := find?_binding_eq_none.2 hfresh
  simp only [expression, yields_bind, yields_get]
  constructor
  · rintro ⟨_, _, ⟨rfl, rfl⟩, h⟩
    rw [hnone, hvalue] at h
    obtain ⟨binding, b₁, hbinding, h⟩ := yields_bind.1 h
    obtain ⟨_, b₂, hmodify, h⟩ := yields_bind.1 h
    obtain ⟨spelled, hspelled, rfl⟩ := yields_bindingOf.1 hbinding
    obtain ⟨slots, hspells, rfl⟩ := yields_extentExpression.1 hspelled
    cases yields_modify.1 hmodify
    obtain ⟨htext, rfl⟩ := yields_pure.1 h
    exact ⟨spelled, slots, hspells, htext, rfl⟩
  · rintro ⟨spelled, slots, hspells, htext, rfl⟩
    refine ⟨b, b, ⟨rfl, rfl⟩, ?_⟩
    rw [hnone, hvalue]
    have hbinding := yields_extentExpression.2 ⟨slots, hspells, rfl⟩
    refine yields_bind.2 ⟨_, _, yields_bindingOf.2 ⟨spelled, hbinding, rfl⟩, ?_⟩
    exact yields_bind.2 ⟨(), _, yields_modify.2 rfl, yields_pure.2 ⟨htext, rfl⟩⟩

end RoleBinder

/-! ## Filled segments -/

open RoleBinder

/-- Filling the segments yields literals that spell the text. -/
def Segment.Renders (segments : List Segment) (b : RoleBinder) (text : String) (b' : RoleBinder) :
    Prop :=
  ∃ filled, Yields (segments.mapM fillSegment) b filled b' ∧ filled.all Segment.isLiteral ∧
    String.join (filled.map Segment.text) = text

namespace Segment

variable {b b' : RoleBinder} {text text' : String} {s : Segment}
  {rest segments others : List Segment}

theorem renders_nil : Renders [] b text b' ↔ "" = text ∧ b = b' := by
  simp only [Renders, List.mapM_nil, yields_pure]
  constructor
  · rintro ⟨_, ⟨rfl, rfl⟩, -, h⟩
    exact ⟨h, rfl⟩
  · rintro ⟨h, rfl⟩
    exact ⟨[], ⟨rfl, rfl⟩, rfl, h⟩

theorem renders_cons :
    Renders (s :: rest) b text b' ↔
      ∃ first b₁ last, Yields (fillSegment s) b (.literal first) b₁ ∧ Renders rest b₁ last b' ∧
        first ++ last = text := by
  simp only [Renders, List.mapM_cons, yields_bind, yields_pure]
  constructor
  · rintro ⟨_, ⟨head, b₁, hhead, filled, b₂, hfilled, rfl, rfl⟩, hall, rfl⟩
    rw [List.all_cons, Bool.and_eq_true] at hall
    cases head with
    | literal first =>
      refine ⟨first, b₁, _, hhead, ⟨filled, hfilled, hall.2, rfl⟩, ?_⟩
      rw [List.map_cons, String.join_cons]
      rfl
    | _ => cases hall.1
  · rintro ⟨first, b₁, _, hhead, ⟨filled, hfilled, hall, rfl⟩, rfl⟩
    refine ⟨_, ⟨_, b₁, hhead, filled, b', hfilled, rfl, rfl⟩, ?_, ?_⟩
    · simpa [isLiteral] using hall
    · rw [List.map_cons, String.join_cons]
      rfl

/-- Literals stand for themselves. -/
theorem renders_literal {first : String} :
    Renders (.literal first :: rest) b text b' ↔
      ∃ last, Renders rest b last b' ∧ first ++ last = text := by
  rw [renders_cons]
  constructor
  · rintro ⟨_, _, last, h, hrest, htext⟩
    obtain ⟨heq, rfl⟩ := yields_pure.1 h
    cases heq
    exact ⟨last, hrest, htext⟩
  · rintro ⟨last, hrest, htext⟩
    exact ⟨first, b, last, yields_pure.2 ⟨rfl, rfl⟩, hrest, htext⟩

theorem renders_singleton {first : String} :
    Renders [.literal first] b text b' ↔ first = text ∧ b = b' := by
  rw [renders_literal]
  simp only [renders_nil]
  constructor
  · rintro ⟨_, ⟨rfl, rfl⟩, rfl⟩
    exact ⟨String.append_empty.symm, rfl⟩
  · rintro ⟨rfl, rfl⟩
    exact ⟨"", ⟨rfl, rfl⟩, String.append_empty⟩

/-- A segment that fills like a literal renders like it. -/
theorem renders_congr (h : fillSegment s = fillSegment (.literal text')) :
    Renders (s :: rest) b text b' ↔ Renders (.literal text' :: rest) b text b' := by
  rw [renders_cons, renders_cons, h]

theorem renders_append :
    Renders (segments ++ others) b text b' ↔
      ∃ first b₁ last, Renders segments b first b₁ ∧ Renders others b₁ last b' ∧
        first ++ last = text := by
  induction segments generalizing b text with
  | nil =>
    simp only [List.nil_append, renders_nil]
    constructor
    · intro h
      exact ⟨"", b, text, ⟨rfl, rfl⟩, h, String.empty_append⟩
    · rintro ⟨_, _, last, ⟨rfl, rfl⟩, h, rfl⟩
      rwa [String.empty_append]
  | cons s segments ih =>
    simp only [List.cons_append, renders_cons, ih]
    constructor
    · rintro ⟨first, b₁, _, hfirst, ⟨middle, b₂, last, hmiddle, hlast, rfl⟩, rfl⟩
      exact ⟨_, b₂, last, ⟨first, b₁, middle, hfirst, hmiddle, rfl⟩, hlast, String.append_assoc⟩
    · rintro ⟨_, b₂, last, ⟨first, b₁, middle, hfirst, hmiddle, rfl⟩, hlast, rfl⟩
      exact ⟨first, b₁, _, hfirst, ⟨middle, b₂, last, hmiddle, hlast, rfl⟩,
        String.append_assoc.symm⟩

/-! ## Normal forms -/

/-- What putting a segment in front can do: two literals become one, an empty literal vanishes, and
everything else stays as it is. -/
theorem joined_cases (s : Segment) (rest : List Segment) :
    (∃ first next others, s = .literal first ∧ rest = .literal next :: others ∧
        Template.joined s rest = .literal (first ++ next) :: others) ∨
      s = .literal "" ∧ Template.joined s rest = rest ∨ Template.joined s rest = s :: rest := by
  unfold Template.joined
  split
  · next first next others => exact .inl ⟨first, next, others, rfl, rfl, rfl⟩
  · next first rest hrest =>
    split
    · next hempty => exact .inr (.inl ⟨congrArg Segment.literal hempty, rfl⟩)
    · exact .inr (.inr rfl)
  · exact .inr (.inr rfl)

variable {f : Segment → Segment}

/-- A segment put in front fills like the segment before the rest, also after a substitution that
leaves literals alone. -/
theorem renders_joined (hf : ∀ text, f (.literal text) = .literal text) :
    Renders ((Template.joined s rest).map f) b text b' ↔ Renders (f s :: rest.map f) b text b' := by
  rcases joined_cases s rest with ⟨first, next, others, rfl, rfl, h⟩ | ⟨rfl, h⟩ | h
  · rw [h]
    simp only [List.map_cons, hf, renders_literal]
    constructor
    · rintro ⟨last, hlast, rfl⟩
      exact ⟨_, ⟨last, hlast, rfl⟩, String.append_assoc.symm⟩
    · rintro ⟨_, ⟨last, hlast, rfl⟩, rfl⟩
      exact ⟨last, hlast, String.append_assoc⟩
  · rw [h, hf, renders_literal]
    simp
  · rw [h, List.map_cons]

/-- A template fills like the segments it was made of. -/
theorem renders_ofSegments (hf : ∀ text, f (.literal text) = .literal text) :
    Renders ((Template.ofSegments segments).segments.map f) b text b' ↔
      Renders (segments.map f) b text b' := by
  induction segments generalizing b text with
  | nil => rfl
  | cons s segments ih =>
    change Renders ((Template.joined s (Template.ofSegments segments).segments).map f) b text b' ↔ _
    rw [renders_joined hf, List.map_cons, renders_cons, renders_cons]
    simp only [ih]

theorem renders_normalForm :
    Renders (Template.ofSegments segments).segments b text b' ↔ Renders segments b text b' := by
  have h : Renders ((Template.ofSegments segments).segments.map id) b text b' ↔
      Renders (segments.map id) b text b' := renders_ofSegments fun _ => rfl
  rwa [List.map_id, List.map_id] at h

/-- A template has the roles of the segments it was made of. -/
theorem role?_ofSegments (segments : List Segment) :
    (Template.ofSegments segments).segments.filterMap role? = segments.filterMap role? := by
  induction segments with
  | nil => rfl
  | cons s segments ih =>
    change (Template.joined s (Template.ofSegments segments).segments).filterMap role? = _
    rw [List.filterMap_cons, ← ih]
    rcases joined_cases s (Template.ofSegments segments).segments with
      ⟨first, next, others, rfl, hrest, h⟩ | ⟨rfl, h⟩ | h
    · rw [h, hrest]
      rfl
    · rw [h]
      rfl
    · rw [h, List.filterMap_cons]

/-- A template of literals spells them side by side. -/
theorem render_ofSegments (segments : List Segment) :
    (Template.ofSegments segments).render = String.join (segments.map Segment.text) := by
  induction segments with
  | nil => rfl
  | cons s segments ih =>
    change String.join
      ((Template.joined s (Template.ofSegments segments).segments).map Segment.text) = _
    rw [List.map_cons, String.join_cons, ← ih]
    rcases joined_cases s (Template.ofSegments segments).segments with
      ⟨first, next, others, rfl, hrest, h⟩ | ⟨rfl, h⟩ | h
    · rw [h, Template.render, hrest]
      simp only [List.map_cons, String.join_cons, Segment.text, String.append_assoc]
    · rw [h]
      exact String.empty_append.symm
    · rw [h, List.map_cons, String.join_cons]
      rfl

theorem isResolved_ofSegments (segments : List Segment) :
    (Template.ofSegments segments).isResolved = segments.all isLiteral := by
  induction segments with
  | nil => rfl
  | cons s segments ih =>
    change (Template.joined s (Template.ofSegments segments).segments).all isLiteral = _
    rw [List.all_cons, ← ih]
    rcases joined_cases s (Template.ofSegments segments).segments with
      ⟨first, next, others, rfl, hrest, h⟩ | ⟨rfl, h⟩ | h
    · rw [h, Template.isResolved, hrest]
      rfl
    · rw [h]
      rfl
    · rw [h, List.all_cons]
      rfl

end Segment

/-! ## Instantiated kernels -/

theorem RoleBinder.fill_eq_run (b : RoleBinder) (t : Template) :
    b.fill t = (((fillTemplate t).run b).2, ((fillTemplate t).run b).1) := rfl

theorem RoleBinder.yields_fillTemplate {t filled : Template} {b b' : RoleBinder} :
    Yields (fillTemplate t) b filled b' ↔
      (∀ role ∈ t.segments.filterMap Segment.role?, b.isRegistered role = true) ∧
        ∃ segments, Yields (t.segments.mapM fillSegment) b segments b' ∧
          Template.ofSegments segments = filled := by
  have hroles : t.roles.find? (!b.isRegistered ·) = none ↔
      ∀ role ∈ t.segments.filterMap Segment.role?, b.isRegistered role = true := by
    simp [Template.roles, List.find?_eq_none]
  rw [← hroles]
  simp only [fillTemplate, yields_bind, yields_get]
  constructor
  · rintro ⟨_, _, ⟨rfl, rfl⟩, h⟩
    split at h
    · exact absurd h yields_throw
    · next hnone =>
      obtain ⟨segments, b₁, hsegments, h⟩ := yields_bind.1 h
      obtain ⟨hfilled, rfl⟩ := yields_pure.1 h
      exact ⟨hnone, segments, hsegments, hfilled⟩
  · rintro ⟨hnone, segments, hsegments, hfilled⟩
    refine ⟨b, b, ⟨rfl, rfl⟩, ?_⟩
    rw [hnone]
    exact yields_bind.2 ⟨segments, b', hsegments, yields_pure.2 ⟨hfilled, rfl⟩⟩

/-- The segment with the function name filled in. -/
def KernelName.segment (n : KernelName) : Segment → Segment
  | .functionName => .literal n.text
  | other => other

theorem KernelName.fill_eq (n : KernelName) (t : Template) :
    n.fill t = .ofSegments (t.segments.map n.segment) := rfl

theorem KernelName.role?_segment (n : KernelName) (segments : List Segment) :
    (segments.map n.segment).filterMap Segment.role? = segments.filterMap Segment.role? := by
  rw [List.filterMap_map]
  refine List.filterMap_congr fun s _ => ?_
  cases s <;> rfl

/-- A template is instantiated when it can be filled and nothing is left to substitute. -/
theorem Kernel.instantiate_iff {t : Template} {n : KernelName} {b : RoleBinder} {k : Kernel} :
    Kernel.instantiate t n b = .ok k ↔
      ∃ filled b', Yields (fillTemplate (n.fill t)) b filled b' ∧ filled.isResolved = true ∧
        ⟨n.text, filled.render, b'.bindings, b'.slots⟩ = k := by
  unfold instantiate Yields
  rw [b.fill_eq_run]
  rcases (fillTemplate (n.fill t)).run b with ⟨e | filled, b'⟩
  · constructor
    · exact nofun
    · rintro ⟨filled, b₁, h, -⟩
      cases h
  · constructor
    · intro h
      dsimp only at h
      split at h
      · next hresolved =>
        cases h
        exact ⟨filled, b', rfl, hresolved, rfl⟩
      · cases h
    · rintro ⟨filled', b₁, h, hresolved, rfl⟩
      cases h
      exact if_pos hresolved

/-- An instantiated kernel spells the segments of its template, with the name and all roles filled
in; every role must be registered. -/
theorem Kernel.instantiate_eq_ok {segments : List Segment} {n : KernelName} {b : RoleBinder}
    {k : Kernel} :
    Kernel.instantiate (.ofSegments segments) n b = .ok k ↔
      (∀ role ∈ segments.filterMap Segment.role?, b.isRegistered role = true) ∧
        ∃ text b', Segment.Renders (segments.map n.segment) b text b' ∧
          ⟨n.text, text, b'.bindings, b'.slots⟩ = k := by
  have hroles : (n.fill (.ofSegments segments)).segments.filterMap Segment.role? =
      segments.filterMap Segment.role? := by
    rw [n.fill_eq, Segment.role?_ofSegments, n.role?_segment, Segment.role?_ofSegments]
  have hrenders : ∀ {text b'},
      Segment.Renders (n.fill (.ofSegments segments)).segments b text b' ↔
        Segment.Renders (segments.map n.segment) b text b' := by
    intro text b'
    rw [n.fill_eq, ← Segment.renders_ofSegments fun _ => rfl]
    exact Segment.renders_normalForm
  rw [instantiate_iff]
  simp only [yields_fillTemplate, hroles, ← hrenders]
  constructor
  · rintro ⟨_, b', ⟨hregistered, filled, hfilled, rfl⟩, hresolved, rfl⟩
    rw [Segment.isResolved_ofSegments] at hresolved
    exact ⟨hregistered, _, b', ⟨filled, hfilled, hresolved, rfl⟩,
      by rw [Segment.render_ofSegments]⟩
  · rintro ⟨hregistered, _, b', ⟨filled, hfilled, hresolved, rfl⟩, rfl⟩
    refine ⟨_, b', ⟨hregistered, filled, hfilled, rfl⟩, ?_, ?_⟩
    · rwa [Segment.isResolved_ofSegments]
    · rw [Segment.render_ofSegments]

end TensorLowering
