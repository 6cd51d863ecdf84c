import TensorLowering.Proofs.Kernel.Recording

/-!
# The order of substitutions

A name and roles can be filled into a template in either order
(`KernelName.fill_commutes`). Both substitutions leave literals alone and bring their result into
normal form, and normal form can be taken before a substitution or after it, also when the
substitution may fail and keeps a state (`Segment.ofSegments_mapM`). So two substitutions commute as
soon as they do on every single segment.
-/

namespace TensorLowering

open Filling RoleBinder

/-! ## Normal forms under substitutions -/

namespace Segment

variable {s : Segment} {segments rest : List Segment}

theorem joined_empty (segments : List Segment) :
    Template.joined (.literal "") segments = segments := by
  cases segments with
  | nil => rfl
  | cons s rest =>
    cases s with
    | literal text => rw [Template.joined, String.empty_append]
    | functionName | metaBuffer | load => rfl

/-- Two literals can be joined first, or put in front one after the other. -/
theorem joined_append (first next : String) (segments : List Segment) :
    Template.joined (.literal (first ++ next)) segments =
      Template.joined (.literal first) (Template.joined (.literal next) segments) := by
  by_cases hnext : next = ""
  · rw [hnext, String.append_empty, joined_empty]
  · have hne : first ++ next ≠ "" := fun h => hnext (String.append_eq_empty_iff.1 h).2
    cases segments with
    | nil => simp only [Template.joined, if_neg hne, if_neg hnext]
    | cons s rest =>
      cases s with
      | literal text => simp only [Template.joined, String.append_assoc]
      | functionName | metaBuffer | load =>
        simp only [Template.joined, if_neg hne, if_neg hnext]

theorem ofSegments_cons (s : Segment) (segments : List Segment) :
    Template.ofSegments (s :: segments) =
      ⟨Template.joined s (Template.ofSegments segments).segments⟩ := rfl

section

variable {m : Type → Type} [Monad m] [LawfulMonad m] {f : Segment → m Segment}

/-- Putting a segment in front and substituting gives the normal form of substituting first. -/
theorem ofSegments_mapM_joined (hf : ∀ text, f (.literal text) = pure (.literal text)) :
    Template.ofSegments <$> (Template.joined s rest).mapM f =
      Template.ofSegments <$> (s :: rest).mapM f := by
  rcases joined_cases s rest with ⟨first, next, others, rfl, rfl, h⟩ | ⟨rfl, h⟩ | h
  · rw [h]
    simp only [List.mapM_cons, hf, pure_bind, bind_assoc, map_bind, map_pure]
    refine congrArg (others.mapM f >>= ·) (funext fun filled => ?_)
    rw [ofSegments_cons, joined_append]
    rfl
  · rw [h]
    simp only [List.mapM_cons, hf, pure_bind, map_bind, map_pure, ofSegments_cons, joined_empty]
    rw [bind_pure_comp]
  · rw [h]

/-- A substitution that leaves literals alone has one result for a list of segments and for its
normal form. -/
theorem ofSegments_mapM (hf : ∀ text, f (.literal text) = pure (.literal text))
    (segments : List Segment) :
    Template.ofSegments <$> (Template.ofSegments segments).segments.mapM f =
      Template.ofSegments <$> segments.mapM f := by
  induction segments with
  | nil => rfl
  | cons s segments ih =>
    have hcons : ∀ rest : List Segment, Template.ofSegments <$> (s :: rest).mapM f =
        f s >>= fun s' => (fun t => ⟨Template.joined s' t.segments⟩) <$>
          (Template.ofSegments <$> rest.mapM f) := by
      intro rest
      simp only [List.mapM_cons, map_bind, bind_pure_comp, Functor.map_map, ofSegments_cons]
    calc Template.ofSegments <$> (Template.ofSegments (s :: segments)).segments.mapM f
        = Template.ofSegments <$> (s :: (Template.ofSegments segments).segments).mapM f :=
          ofSegments_mapM_joined hf
      _ = Template.ofSegments <$> (s :: segments).mapM f := by rw [hcons, hcons, ih]

end

/-- The same for a substitution that cannot fail. -/
theorem ofSegments_map {f : Segment → Segment} (hf : ∀ text, f (.literal text) = .literal text)
    (segments : List Segment) :
    (Template.ofSegments segments).map f = .ofSegments (segments.map f) := by
  have h := ofSegments_mapM (m := Id) (f := fun s => pure (f s))
    (fun text => congrArg pure (hf text)) segments
  rw [List.mapM_pure, List.mapM_pure, map_pure, map_pure] at h
  exact congrArg Id.run h

end Segment

/-! ## Names and roles -/

variable {t filled : Template} {n : KernelName} {b b' : RoleBinder}

namespace KernelName

theorem segment_literal (n : KernelName) (text : String) :
    n.segment (.literal text) = .literal text := rfl

/-- The name can be filled into one segment before its role or after it. -/
theorem fillSegment_segment (n : KernelName) (s : Segment) :
    fillSegment (n.segment s) = n.segment <$> fillSegment s := by
  cases s with
  | literal | functionName | metaBuffer =>
    simp only [segment, fillSegment, map_pure]
  | load role => simp only [segment, fillSegment, map_bind, map_pure]

theorem fillSegments_segment (n : KernelName) (segments : List Segment) :
    (segments.map n.segment).mapM fillSegment =
      List.map n.segment <$> segments.mapM fillSegment := by
  induction segments with
  | nil => rfl
  | cons s segments ih =>
    simp only [List.map_cons, List.mapM_cons, ih, fillSegment_segment, map_bind, bind_map_left,
      map_pure]

theorem roles_fill (n : KernelName) (t : Template) : (n.fill t).roles = t.roles := by
  rw [Template.roles, n.fill_eq, Segment.role?_ofSegments, n.role?_segment, Template.roles]

/-- Filling roles into a template with a name is filling them into the template, and the name into
the result. -/
theorem fillTemplate_fill (n : KernelName) (t : Template) :
    fillTemplate (n.fill t) = n.fill <$> fillTemplate t := by
  have hsegments : Template.ofSegments <$> (n.fill t).segments.mapM fillSegment =
      n.fill <$> Template.ofSegments <$> t.segments.mapM fillSegment := by
    have hliteral : ∀ text, fillSegment (.literal text) = pure (.literal text) := fun _ => rfl
    rw [n.fill_eq, Segment.ofSegments_mapM hliteral, n.fillSegments_segment, Functor.map_map,
      Functor.map_map]
    refine congrArg (· <$> t.segments.mapM fillSegment) (funext fun segments => ?_)
    exact (Segment.ofSegments_map n.segment_literal segments).symm
  simp only [fillTemplate, bind_pure_comp, hsegments, roles_fill, map_bind]
  refine congrArg (get >>= ·) (funext fun b => ?_)
  cases t.roles.find? (!b.isRegistered ·) <;> rfl

end KernelName

/-! ## Filled templates -/

/-- A segment and the text that stands for it once the name and the roles are filled in. -/
inductive Segment.SpelledBy (n : KernelName) (b : RoleBinder) : Segment → String → Prop
  | literal (text : String) : SpelledBy n b (.literal text) text
  | functionName : SpelledBy n b .functionName n.text
  | metaBuffer : SpelledBy n b .metaBuffer metadataPointer
  | load {role text : String} (h : b.HasExpression role text) : SpelledBy n b (.load role) text

namespace Segment

variable {s s' : Segment} {segments others : List Segment}

/-- After roles and name nothing of a segment is left but a text. -/
theorem FilledBy.exists_text (h : s.FilledBy b.HasExpression s') (n : KernelName) :
    ∃ text, s.SpelledBy n b text ∧ n.segment s' = .literal text := by
  cases h with
  | literal text => exact ⟨text, .literal text, rfl⟩
  | functionName => exact ⟨n.text, .functionName, rfl⟩
  | metaBuffer => exact ⟨metadataPointer, .metaBuffer, rfl⟩
  | @load role text hrole => exact ⟨text, .load hrole, rfl⟩

theorem exists_texts (h : List.Forall₂ (FilledBy b.HasExpression) segments others)
    (n : KernelName) :
    ∃ texts, List.Forall₂ (SpelledBy n b) segments texts ∧
      others.map n.segment = texts.map literal := by
  obtain ⟨texts, htexts, hothers⟩ := Computation.exists_pointwise h fun s s' hs => hs.exists_text n
  exact ⟨texts, htexts, Computation.map_eq_map hothers fun s' text heq => heq⟩

/-- Literals are filled with themselves. -/
theorem eq_of_filledBy {texts : String → String → Prop}
    (h : List.Forall₂ (FilledBy texts) segments others) (hall : segments.all isLiteral = true) :
    others = segments := by
  induction h with
  | nil => rfl
  | cons hs _ ih =>
    rw [List.all_cons, Bool.and_eq_true] at hall
    cases hs with
    | literal => rw [ih hall.2]
    | functionName | metaBuffer | load => cases hall.1

/-- Taking the normal form again changes nothing. -/
theorem ofSegments_segments (segments : List Segment) :
    Template.ofSegments (Template.ofSegments segments).segments = .ofSegments segments := by
  have h := ofSegments_map (f := id) (fun _ => rfl) segments
  rwa [Template.map, List.map_id, List.map_id] at h

end Segment

namespace RoleBinder

theorem fill_map (n : KernelName) (b : RoleBinder) (t : Template) :
    b.fill (n.fill t) = ((b.fill t).1, (b.fill t).2.map n.fill) := by
  rw [b.fill_eq_run, b.fill_eq_run, n.fillTemplate_fill, ExceptT.run_map]
  rfl

/-- With the name and the roles filled in, a template is its segments' texts. -/
theorem exists_texts_of_fill (h : (b.fill (n.fill t)).2 = .ok filled) :
    ∃ texts, List.Forall₂ (Segment.SpelledBy n (b.fill t).1) t.segments texts ∧
      filled = .ofSegments (texts.map Segment.literal) := by
  rw [fill_map] at h
  obtain ⟨named, hnamed, rfl⟩ := Computation.map_eq_ok.1 h
  obtain ⟨segments, hsegments, rfl⟩ := filledBy_of_fill hnamed
  obtain ⟨texts, htexts, heq⟩ := Segment.exists_texts hsegments n
  refine ⟨texts, htexts, ?_⟩
  rw [← heq]
  exact Segment.ofSegments_map n.segment_literal segments

/-- There is nothing to fill in where only literals are left. -/
theorem fill_of_isResolved {segments : List Segment}
    (h : (Template.ofSegments segments).isResolved = true) (b : RoleBinder) :
    b.fill (.ofSegments segments) = (b, .ok (.ofSegments segments)) := by
  have hloads : (Template.ofSegments segments).loads = [] := by
    refine List.filterMap_eq_nil_iff.2 ?_
    intro s hs
    have hliteral := List.all_eq_true.1 h s hs
    cases s with
    | literal => rfl
    | functionName | metaBuffer | load => cases hliteral
  have houtcome := b.fill_outcome (.ofSegments segments)
  generalize b.fill (.ofSegments segments) = result at houtcome ⊢
  cases houtcome with
  | unregistered hrole =>
    rw [hloads] at hrole
    cases hrole
  | stuck _ hbefore =>
    rw [hloads] at hbefore
    exact absurd hbefore.symm (List.append_ne_nil_of_right_ne_nil _ (List.cons_ne_nil _ _))
  | filled _ huses hfilled =>
    rw [hloads] at huses
    cases huses
    obtain ⟨others, hothers, rfl⟩ := hfilled
    rw [Segment.eq_of_filledBy hothers h, Segment.ofSegments_segments]

theorem fill_ne_leftoverTokens (b : RoleBinder) (t : Template) (subject : Subject) :
    (b.fill t).2 ≠ .error (.unsupported subject .leftoverTokens) := by
  intro h
  have houtcome := b.fill_outcome t
  generalize b.fill t = result at houtcome h
  cases houtcome with
  | unregistered | filled => cases h
  | stuck _ _ _ _ _ he =>
    cases h
    rcases SymbolTable.fault_of_evaluate he with ⟨k, hk⟩ | ⟨text, x, op, y, hk⟩
    · cases hk
    · cases hk

/-- With the name and the roles filled in, nothing is left to substitute. -/
theorem isResolved_of_fill (h : (b.fill (n.fill t)).2 = .ok filled) : filled.isResolved = true := by
  obtain ⟨texts, -, rfl⟩ := exists_texts_of_fill h
  rw [Segment.isResolved_ofSegments, List.all_map]
  exact List.all_eq_true.2 fun _ _ => rfl

end RoleBinder

theorem KernelName.fill_of_isResolved {segments : List Segment}
    (h : (Template.ofSegments segments).isResolved = true) (n : KernelName) :
    n.fill (.ofSegments segments) = .ofSegments segments := by
  have hsame : (Template.ofSegments segments).segments.map n.segment =
      (Template.ofSegments segments).segments := by
    refine (List.map_congr_left ?_).trans (List.map_id _)
    intro s hs
    have hliteral := List.all_eq_true.1 h s hs
    cases s with
    | functionName => cases hliteral
    | literal | metaBuffer | load => rfl
  rw [n.fill_eq, hsame, Segment.ofSegments_segments]

/-- A template is instantiated whenever it can be filled. -/
theorem Kernel.instantiate_eq_map (t : Template) (n : KernelName) (b : RoleBinder) :
    Kernel.instantiate t n b = (b.fill (n.fill t)).2.map (fun filled =>
      ⟨n.text, filled.render, (b.fill t).1.bindings, (b.fill t).1.slots⟩) := by
  have hbinder : (b.fill (n.fill t)).1 = (b.fill t).1 := by rw [fill_map]
  have hresolved : ∀ filled, (b.fill (n.fill t)).2 = .ok filled → filled.isResolved = true :=
    fun _ => isResolved_of_fill
  rw [← hbinder, Kernel.instantiate]
  generalize b.fill (n.fill t) = result at hresolved
  obtain ⟨b', e | filled⟩ := result
  · rfl
  · exact if_pos (hresolved filled rfl)

/-- A name and the roles can be filled into a template in either order: both fail, or both succeed
with the same template, and they leave the same binder behind. The template is then resolved, it
spells the texts of the segments side by side, and filling in other names or roles finds nothing to
replace in it. So instantiating a kernel fails only where filling does, and never for leftover
tokens. -/
theorem KernelName.fill_commutes (t : Template) (n : KernelName) (b : RoleBinder) :
    b.fill (n.fill t) = ((b.fill t).1, (b.fill t).2.map n.fill) ∧
      (∀ filled, (b.fill (n.fill t)).2 = .ok filled →
        filled.isResolved = true ∧
        (∃ texts, List.Forall₂ (Segment.SpelledBy n (b.fill t).1) t.segments texts ∧
          filled.render = String.join texts) ∧
        ∀ (n' : KernelName) (b' : RoleBinder),
          n'.fill filled = filled ∧ b'.fill filled = (b', .ok filled)) ∧
      Kernel.instantiate t n b = (b.fill (n.fill t)).2.map (fun filled =>
        ⟨n.text, filled.render, (b.fill t).1.bindings, (b.fill t).1.slots⟩) ∧
      ∀ subject, Kernel.instantiate t n b ≠ .error (.unsupported subject .leftoverTokens) := by
  refine ⟨fill_map n b t, ?_, Kernel.instantiate_eq_map t n b, ?_⟩
  · intro filled h
    have hresolved := isResolved_of_fill h
    obtain ⟨texts, htexts, rfl⟩ := exists_texts_of_fill h
    refine ⟨hresolved, ⟨texts, htexts, ?_⟩, ?_⟩
    · rw [Segment.render_ofSegments, List.map_map]
      exact congrArg String.join (List.map_id texts)
    · intro n' b'
      exact ⟨n'.fill_of_isResolved hresolved, b'.fill_of_isResolved hresolved⟩
  · intro subject h
    rw [Kernel.instantiate_eq_map] at h
    refine b.fill_ne_leftoverTokens (n.fill t) subject ?_
    generalize (b.fill (n.fill t)).2 = result at h
    cases result with
    | error e =>
      cases h
      rfl
    | ok filled => cases h

/-- A name that reads like a load. -/
def loadName : KernelName := ⟨"%%LOAD_BUFFER(N)%%"⟩

/-- A template that is not in normal form and loads a role twice. -/
def unevenTemplate : Template :=
  ⟨[.literal "", .literal "void ", .functionName, .literal "(const int *", .metaBuffer,
    .literal ") ", .literal "= ", .load "N", .literal "*", .load "M", .literal "+", .load "M"]⟩

/-- Roles for a number that is known and for one that is not. -/
def unevenRoles : RoleBinder :=
  ((RoleBinder.empty ⟨[⟨"M", none⟩]⟩).register "N" (.scalar (.value 3))).register "M"
    (.scalar (.symbol 0))

/-- `unevenTemplate` with `loadName` and `unevenRoles` filled in. -/
def evenText : String :=
  "void %%LOAD_BUFFER(N)%%(const int *meta_buffer) = 3*meta_buffer[0]+meta_buffer[0]"

/-- The name is not taken for a load of `N`, whichever is filled in first, and later substitutions
leave it alone too. -/
theorem KernelName.fill_commutes_loadName :
    ∃ filled, (unevenRoles.fill (loadName.fill unevenTemplate)).2 = .ok filled ∧
      (unevenRoles.fill unevenTemplate).2.map loadName.fill = .ok filled ∧
      filled.isResolved = true ∧ filled.render = evenText ∧
      (∃ texts, List.Forall₂ (Segment.SpelledBy loadName (unevenRoles.fill unevenTemplate).1)
        unevenTemplate.segments texts ∧ String.join texts = evenText) ∧
      unevenRoles.fill filled = (unevenRoles, .ok filled) ∧
      (Kernel.instantiate unevenTemplate loadName unevenRoles).map (·.source) = .ok evenText := by
  obtain ⟨hcommutes, hfilled, hkernel, -⟩ := fill_commutes unevenTemplate loadName unevenRoles
  have hfill : (unevenRoles.fill (loadName.fill unevenTemplate)).2 = .ok ⟨[.literal evenText]⟩ := by
    decide +kernel
  obtain ⟨hresolved, ⟨texts, htexts, hrender⟩, hagain⟩ := hfilled _ hfill
  have htext : (Template.mk [.literal evenText]).render = evenText := by decide +kernel
  refine ⟨_, hfill, ?_, hresolved, htext, ⟨texts, htexts, hrender.symm.trans htext⟩,
    (hagain loadName unevenRoles).2, ?_⟩
  · rw [← hfill, hcommutes]
  · rw [hkernel, hfill]
    exact congrArg Except.ok htext

end TensorLowering
