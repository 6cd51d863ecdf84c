import TensorLowering.Proofs.Kernel.References
import TensorLowering.Proofs.Kernel.Roles

/-!
# What is in the source of a kernel

The expressions that values are bound to refer to the slots that were added for them, to each of
these and to no other (`BindsAll.clear`, `BindsAll.exists_refersTo`). All the rest of a kernel's
source is clear of references, and no part of it has two percent signs side by side, so the source
of a kernel refers to its own slots (`Graph.refersTo_kernel`) and is free of template tokens
(`Graph.clear_tokens_kernel`).
-/

namespace TensorLowering

open RoleBinder

/-! ## Expressions -/

namespace BindsAll

variable {t : SymbolTable} {slots slots' : List MetadataSlot} {values : List (String × RoleValue)}
  {bindings : List Binding}

/-- The expressions are clear of every slot that was not added. -/
theorem clear {k : Nat} (h : BindsAll t slots values bindings slots')
    (hk : k < slots.length ∨ slots'.length ≤ k) :
    ∀ text ∈ bindings.map Binding.expression, Clear (slotExpression k).toList text.toList := by
  induction h with
  | nil => exact nofun
  | @cons slots slots₁ slots₂ role text value rest bindings hspells hrest ih =>
    have hle := hrest.slots_prefix.length_le
    refine List.forall_mem_cons.2 ⟨value.clear_slot_binding role ?_, ih ?_⟩
    · cases hspells with
      | known => exact (inert_toString _).clear_slot k
      | slot =>
        rw [List.length_append, List.length_singleton] at hle
        exact clear_slotExpression (by omega)
    · cases hspells with
      | known => exact hk
      | slot =>
        rw [List.length_append, List.length_singleton]
        exact hk.imp (fun hlt => by omega) id

/-- Some expression refers to a slot that was added. -/
theorem exists_refersTo {k : Nat} (h : BindsAll t slots values bindings slots')
    (hk : slots.length ≤ k) (hk' : k < slots'.length) :
    ∃ e ∈ bindings.map Binding.expression, RefersTo e k := by
  induction h with
  | nil => omega
  | @cons slots slots₁ slots₂ role text value rest bindings hspells hrest ih =>
    have hlater : slots₁.length ≤ k → ∃ e ∈ (value.binding role text :: bindings).map
        Binding.expression, RefersTo e k := by
      intro hle
      obtain ⟨e, he, hrefers⟩ := ih hle hk'
      exact ⟨e, List.mem_cons_of_mem _ he, hrefers⟩
    cases hspells with
    | known => exact hlater hk
    | slot =>
      rw [List.length_append, List.length_singleton] at hlater
      rcases Nat.eq_or_lt_of_le hk with heq | hlt
      · exact ⟨_, List.mem_cons_self, (value.refersTo_slot role _ k).2 heq.symm⟩
      · exact hlater hlt

end BindsAll

/-! ## The source around the expressions -/

/-- What every token of a template begins and ends with. -/
def tokenMark : String := "%%"

namespace Routine

variable {r : Routine} {word : List Char} {entry : String} {texts : List String} {k : Nat}

/-- The fixed parts of the source of a routine are clear of a word. -/
structure FrameClear (r : Routine) (word : List Char) : Prop where
  opening : Clear word "\nvoid ".toList
  head : Clear word ("(const int * " ++ metadataPointer ++ ")\n\x7b\n").toList
  declaration : ∀ p ∈ r.parameters,
    Clear word (Code.indentation 1 ++ p.declaration ++ " = ").toList
  closing : Clear word ";\n".toList
  body : Clear word ("\n" ++ r.body.render 1 ++ "\x7d\n").toList

/-- The source of a routine is clear of a word if its parts are. -/
theorem FrameClear.source (h : r.FrameClear word) (hentry : Clear word entry.toList)
    (htexts : ∀ text ∈ texts, Clear word text.toList) :
    Clear word (r.source entry texts).toList := by
  have hlines : Clear word (lines r.parameters texts).toList := by
    refine .join fun line hline => ?_
    obtain ⟨i, hi, rfl⟩ := List.mem_iff_getElem.1 hline
    have hlen := hi
    rw [List.length_zipWith] at hlen
    have hdeclaration := h.declaration _ (List.getElem_mem (n := i) (by omega))
    rw [List.getElem_zipWith, Parameter.line, String.toList_append, String.toList_append]
    exact (hdeclaration.append (htexts _ (List.getElem_mem _))).append h.closing
  have hall := (((h.opening.append hentry).append h.head).append hlines).append h.body
  simpa only [Routine.source, String.toList_append, List.append_assoc] using hall

/-- Without underscores in the names of a routine, references are in the texts of its values
only. -/
theorem IsPlain.frameClear (hr : r.IsPlain) (k : Nat) : r.FrameClear (slotExpression k).toList where
  opening := Inert.clear_slot (by decide) k
  head := Inert.clear_slot (by decide) k
  declaration p hp := (inert_declaration (hr.1 p hp)).clear_slot k
  closing := Inert.clear_slot (by decide) k
  body := (inert_body hr).clear_slot k

/-- What a text refers to is referred to in the source that has it in it. -/
theorem refersTo_source {text : String} (hlen : texts.length ≤ r.parameters.length)
    (htext : text ∈ texts) (h : RefersTo text k) : RefersTo (r.source entry texts) k := by
  obtain ⟨i, hi, rfl⟩ := List.mem_iff_getElem.1 htext
  have hi' : i < (List.zipWith Parameter.line r.parameters texts).length := by
    rw [List.length_zipWith]
    omega
  have hline : RefersTo (r.parameters[i].line texts[i]) k := (h.append_right _).append_left _
  have hlines : RefersTo (lines r.parameters texts) k := by
    refine hline.join (List.mem_iff_getElem.2 ⟨i, hi', ?_⟩)
    rw [List.getElem_zipWith]
  exact (hlines.append_right _).append_left _

end Routine

/-! ## Template tokens -/

/-- No numeral, phrase of code or reference has two percent signs side by side. -/
theorem Code.compositional_tokens :
    Code.Compositional fun text => Clear tokenMark.toList text.toList where
  append h hother := by
    rw [String.toList_append]
    exact h.append hother
  numeral n := .of_not_mem fun hmem => absurd (isDigit_of_mem_toString hmem) (by decide)
  expression := by decide
  statement := by decide

/-- No text that spells a number has a percent sign. -/
theorem clear_tokens_of_spells {t : SymbolTable} {slots slots' : List MetadataSlot}
    {role text : String} {extent : Extent} (h : Spells t slots role extent text slots') :
    Clear tokenMark.toList text.toList := by
  refine .of_not_mem fun hmem => ?_
  cases h with
  | known => exact absurd (isDigit_or_of_mem_toString hmem) (by decide)
  | slot =>
    simp only [toList_slotExpression, List.mem_append] at hmem
    rcases hmem with (hmem | hmem) | hmem
    · exact absurd hmem (by decide)
    · exact absurd (isDigit_of_mem_toString hmem) (by decide)
    · exact absurd hmem (by decide)

/-- No expression that a value is bound to has a template token in it. -/
theorem BindsAll.clear_tokens {t : SymbolTable} {slots slots' : List MetadataSlot}
    {values : List (String × RoleValue)} {bindings : List Binding}
    (h : BindsAll t slots values bindings slots') :
    ∀ text ∈ bindings.map Binding.expression, Clear tokenMark.toList text.toList := by
  induction h with
  | nil => exact nofun
  | @cons _ _ _ role _ value _ _ hspells _ ih =>
    refine List.forall_mem_cons.2 ⟨?_, ih⟩
    refine value.clear_binding role (fun space => ?_) (by decide) (clear_tokens_of_spells hspells)
    cases space <;> decide

theorem clear_tokens_declaration {p : Parameter} (hp : Clear tokenMark.toList p.name.toList) :
    Clear tokenMark.toList (Code.indentation 1 ++ p.declaration ++ " = ").toList := by
  have hdeclaration : Clear tokenMark.toList p.declaration.toList := by
    unfold Parameter.declaration
    split <;> exact String.toList_append ▸ Clear.append (by decide) hp
  rw [String.toList_append, String.toList_append]
  exact ((Code.compositional_tokens.indentation 1).append hdeclaration).append (by decide)

/-! ## Operators -/

namespace OperatorKind

/-- No name that the routine of an operator uses has an underscore. -/
theorem isPlain_routine (kind : OperatorKind) : kind.routine.IsPlain := by
  cases kind <;> rw [routine] <;> decide

/-- The fixed parts of the source of an operator have no template token in them. -/
theorem clear_tokens_frame (kind : OperatorKind) : kind.routine.FrameClear tokenMark.toList := by
  have hparameters : ∀ p ∈ kind.routine.parameters, Clear tokenMark.toList p.name.toList := by
    cases kind <;> rw [routine] <;> decide
  have hnames : ∀ name ∈ kind.routine.body.names, Clear tokenMark.toList name.toList := by
    cases kind <;> rw [routine] <;> decide
  refine ⟨by decide, by decide, fun p hp => clear_tokens_declaration (hparameters p hp), by decide,
    ?_⟩
  have hbody := Code.compositional_tokens.render hnames 1
  rw [String.toList_append, String.toList_append]
  exact (Clear.append (by decide) hbody).append (by decide)

end OperatorKind

/-- The source of a kernel refers to the slots of the kernel, to each of them and to no other. -/
theorem Graph.refersTo_kernel {g : Graph} {l : Layout} {op : Operator} {k : Kernel}
    (h : g.kernel l op = .ok k) (i : Nat) : RefersTo k.source i ↔ i < k.slots.length := by
  obtain ⟨_, _, _, _, _, hk⟩ := exists_emitsFrom h
  rw [hk.source, hk.entry]
  constructor
  · intro hrefers
    by_contra hge
    have hexpressions := hk.binds.clear (.inr (Nat.le_of_not_lt hge))
    have hclear := (op.kind.isPlain_routine.frameClear i).source ((inert_ofOperator op).clear_slot i)
      hexpressions
    exact not_refersTo_of_clear hclear hrefers
  · intro hi
    have hlen : (k.bindings.map Binding.expression).length = op.kind.routine.parameters.length := by
      have hkeys := hk.binds.keys.trans (OperatorKind.roles_keys hk.roles)
      simpa using congrArg List.length hkeys
    obtain ⟨text, htext, hrefers⟩ := hk.binds.exists_refersTo (Nat.zero_le i) hi
    exact Routine.refersTo_source hlen.le htext hrefers

/-- No template token is left in the source of a kernel, nor can one come about in it. -/
theorem Graph.clear_tokens_kernel {g : Graph} {l : Layout} {op : Operator} {k : Kernel}
    (h : g.kernel l op = .ok k) : Clear tokenMark.toList k.source.toList := by
  obtain ⟨_, _, _, _, _, hk⟩ := exists_emitsFrom h
  rw [hk.source, hk.entry]
  refine op.kind.clear_tokens_frame.source (.of_not_mem fun hmem => ?_) hk.binds.clear_tokens
  exact absurd (KernelName.isRoleChar_of_mem_ofOperator hmem) (by decide)

end TensorLowering
