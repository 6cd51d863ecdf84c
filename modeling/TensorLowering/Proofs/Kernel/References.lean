import TensorLowering.Proofs.Kernel.EntryName
import TensorLowering.Proofs.Kernel.Rendering
import TensorLowering.Proofs.Kernel.Routine
import TensorLowering.Proofs.Text.Clear

/-!
# References to the metadata buffer

A kernel refers to a slot of the metadata buffer as to an element of an array. Replacing every
reference by a number goes through the text from the left (`Kernel.replaceReferences`). No reference
begins in a text that has no bracket, or no underscore, and does not end like the beginning of one
(`Inert`), so what is replaced in the source of a routine are the spellings of its parameters, one
by one (`Routine.replaces_source`), and the expression of a value refers to the slot of its number
and to no other (`RoleValue.refersTo_slot`).
-/

namespace TensorLowering

open RoleBinder

/-! ## Replacing references -/

namespace Kernel

/-- The slot that a text begins with a reference to, with its number. -/
def leadingReference? (numbers : List Int64) (chars : List Char) : Option (Int64 × Nat) :=
  numbers.zipIdx.find? fun (_, slot) => (slotExpression slot).toList.isPrefixOf chars

/-- The text with every reference to a slot replaced by the number of the slot. The first `skip`
characters belong to a reference that was replaced already. -/
def replaceFrom (numbers : List Int64) : Nat → List Char → List Char
  | _, [] => []
  | skip + 1, _ :: chars => replaceFrom numbers skip chars
  | 0, ch :: chars =>
    match leadingReference? numbers (ch :: chars) with
    | some (n, slot) =>
      (toString n.toInt).toList ++ replaceFrom numbers ((slotExpression slot).length - 1) chars
    | none => ch :: replaceFrom numbers 0 chars

/-- The text with every reference to a slot of the metadata buffer replaced by the number of the
slot. -/
def replaceReferences (numbers : List Int64) (text : String) : String :=
  String.ofList (replaceFrom numbers 0 text.toList)

end Kernel

open Kernel

/-! ## Inert texts -/

/-- What every reference begins with. -/
def referenceOpening : List Char := (metadataPointer ++ "[").toList

/-- No reference begins in the text, whatever comes after it. -/
def Inert (chars : List Char) : Prop :=
  ('_' ∉ chars ∨ '[' ∉ chars) ∧ ∀ ch ∈ chars.getLast?, ch ∉ referenceOpening

-- The second part is decided by a look at the last character, not by trying all characters.
instance (chars : List Char) : Decidable (Inert chars) :=
  @instDecidableAnd _ _ inferInstance (Option.decidableForallMem _)

theorem isDigit_of_mem_opening {ch : Char} (h : ch ∈ referenceOpening) : ch.isDigit = false := by
  have hall : referenceOpening.all (fun ch => !ch.isDigit) = true := by decide
  simpa using List.all_eq_true.1 hall ch h

theorem toList_slotExpression (slot : Nat) :
    (slotExpression slot).toList = referenceOpening ++ (toString slot).toList ++ [']'] := by
  simp only [slotExpression, referenceOpening, String.toList_append]
  rfl

section
variable {numbers : List Int64} {chars rest : List Char} {n : Int64} {slot : Nat}

theorem Inert.tail {ch : Char} (h : Inert (ch :: chars)) : Inert chars := by
  refine ⟨h.1.imp (fun h => ?_) fun h => ?_, fun last hlast => h.2 last ?_⟩
  · exact fun hmem => h (List.mem_cons_of_mem _ hmem)
  · exact fun hmem => h (List.mem_cons_of_mem _ hmem)
  · cases chars with
    | nil => cases hlast
    | cons _ _ => rwa [List.getLast?_cons_cons]

/-- An inert text is clear of what every reference begins with. -/
theorem Inert.clear (h : Inert chars) : Clear referenceOpening chars := by
  induction chars with
  | nil => exact .nil
  | cons ch chars ih =>
    refine .cons (fun hin => ?_) (fun hout => ?_) (ih h.tail)
    · rcases h.1 with hnone | hnone
      · exact hnone (hin.subset (by decide))
      · exact hnone (hin.subset (by decide))
    · have hlast := List.getLast?_eq_getLast_of_ne_nil (List.cons_ne_nil ch chars)
      exact h.2 _ hlast (hout.subset (List.getLast_mem _))

theorem Inert.clear_slot (h : Inert chars) (slot : Nat) :
    Clear (slotExpression slot).toList chars := by
  refine h.clear.of_prefix ?_
  rw [toList_slotExpression, List.append_assoc]
  exact List.prefix_append _ _

/-- At the beginning of an inert text there is no reference. -/
theorem Inert.leadingReference? (h : Inert chars) (hne : chars ≠ []) :
    leadingReference? numbers (chars ++ rest) = none := by
  refine List.find?_eq_none.2 fun ⟨_, slot⟩ _ hbegin => ?_
  exact (h.clear_slot slot).not_begins hne rest (List.isPrefixOf_iff_prefix.1 hbegin)

theorem Inert.replaceFrom (h : Inert chars) :
    replaceFrom numbers 0 (chars ++ rest) = chars ++ replaceFrom numbers 0 rest := by
  induction chars with
  | nil => rfl
  | cons ch chars ih =>
    have hnone : Kernel.leadingReference? numbers (ch :: chars ++ rest) = none :=
      h.leadingReference? (List.cons_ne_nil _ _)
    rw [List.cons_append] at hnone ⊢
    rw [Kernel.replaceFrom, hnone, ih h.tail, List.cons_append]

theorem replaceFrom_length (chars : List Char) :
    replaceFrom numbers chars.length (chars ++ rest) = replaceFrom numbers 0 rest := by
  induction chars with
  | nil => rfl
  | cons ch chars ih =>
    rw [List.length_cons, List.cons_append, replaceFrom, ih]

/-- Digits up to a closing bracket are all the digits before the first one. -/
theorem eq_of_digits_prefix {a b : List Char} (ha : ∀ ch ∈ a, ch.isDigit = true)
    (hb : ∀ ch ∈ b, ch.isDigit = true) (h : a ++ [']'] <+: b ++ ']' :: rest) : a = b := by
  induction a generalizing b with
  | nil =>
    cases b with
    | nil => rfl
    | cons ch b =>
      obtain ⟨rfl, -⟩ := List.cons_prefix_cons.1 h
      cases hb ']' List.mem_cons_self
  | cons ch a ih =>
    cases b with
    | nil =>
      obtain ⟨rfl, -⟩ := List.cons_prefix_cons.1 h
      cases ha ']' List.mem_cons_self
    | cons ch' b =>
      obtain ⟨rfl, htail⟩ := List.cons_prefix_cons.1 h
      rw [ih (fun c hc => ha c (List.mem_cons_of_mem _ hc))
        (fun c hc => hb c (List.mem_cons_of_mem _ hc)) htail]

/-- Digits tell references apart, so the slot that a reference spells is the slot it is found
for. -/
theorem eq_of_prefix {slot slot' : Nat}
    (h : (slotExpression slot').toList <+: (slotExpression slot).toList ++ rest) :
    slot' = slot := by
  simp only [toList_slotExpression, List.append_assoc, List.prefix_append_right_inj] at h
  have heq :=
    eq_of_digits_prefix (fun _ => isDigit_of_mem_toString) (fun _ => isDigit_of_mem_toString) h
  exact toString_injective (String.toList_inj.1 heq)

/-- A reference to a slot is found for that slot. -/
theorem leadingReference?_slotExpression (hn : numbers[slot]? = some n) :
    Kernel.leadingReference? numbers ((slotExpression slot).toList ++ rest) = some (n, slot) := by
  have hfound :
      (Kernel.leadingReference? numbers ((slotExpression slot).toList ++ rest)).isSome := by
    refine List.find?_isSome.2 ⟨(n, slot), by simpa [List.mem_zipIdx_iff_getElem?] using hn, ?_⟩
    exact List.isPrefixOf_iff_prefix.2 (List.prefix_append _ _)
  obtain ⟨⟨m, slot'⟩, hm⟩ := Option.isSome_iff_exists.1 hfound
  have hprefix : (slotExpression slot').toList.isPrefixOf
      ((slotExpression slot).toList ++ rest) = true := List.find?_some (a := (m, slot')) hm
  obtain rfl := eq_of_prefix (List.isPrefixOf_iff_prefix.1 hprefix)
  have hmem : (m, slot') ∈ numbers.zipIdx := List.mem_of_find?_eq_some hm
  rw [List.mem_zipIdx_iff_getElem?, hn] at hmem
  cases hmem
  exact hm

/-- A reference to a slot is replaced by the number of the slot. -/
theorem replaceFrom_slotExpression (hn : numbers[slot]? = some n) :
    Kernel.replaceFrom numbers 0 ((slotExpression slot).toList ++ rest) =
      (toString n.toInt).toList ++ Kernel.replaceFrom numbers 0 rest := by
  have hfound : Kernel.leadingReference? numbers ((slotExpression slot).toList ++ rest) =
      some (n, slot) := leadingReference?_slotExpression hn
  have hlen : (slotExpression slot).length = (slotExpression slot).toList.length := rfl
  cases hchars : (slotExpression slot).toList with
  | nil =>
    rw [toList_slotExpression] at hchars
    simp at hchars
  | cons ch chars =>
    rw [hchars, List.cons_append] at hfound
    rw [List.cons_append, Kernel.replaceFrom, hfound]
    dsimp only
    rw [hlen, hchars, List.length_cons, Nat.add_sub_cancel, replaceFrom_length]

end

/-! ## Texts in which references are replaced -/

/-- Replacing references makes the second text of the first, whatever comes after it. -/
def Replaces (numbers : List Int64) (text text' : String) : Prop :=
  ∀ rest, replaceFrom numbers 0 (text.toList ++ rest) = text'.toList ++ replaceFrom numbers 0 rest

namespace Replaces

variable {numbers : List Int64} {text text' other other' : String}

theorem eq (h : Replaces numbers text text') : replaceReferences numbers text = text' := by
  have hend := h []
  rw [List.append_nil] at hend
  rw [replaceReferences, hend, replaceFrom, List.append_nil, String.ofList_toList]

theorem inert (h : Inert text.toList) : Replaces numbers text text := fun _ => h.replaceFrom

theorem append (h : Replaces numbers text text') (h' : Replaces numbers other other') :
    Replaces numbers (text ++ other) (text' ++ other') := by
  intro rest
  rw [String.toList_append, String.toList_append, List.append_assoc, List.append_assoc, h, h']

theorem join {texts texts' : List String} (h : List.Forall₂ (Replaces numbers) texts texts') :
    Replaces numbers (String.join texts) (String.join texts') := by
  induction h with
  | nil => exact fun _ => rfl
  | cons htext _ ih =>
    rw [String.join_cons, String.join_cons]
    exact htext.append ih

end Replaces

/-- A decimal number is inert. -/
theorem inert_toString (n : Int) : Inert (toString n).toList := by
  refine ⟨.inl fun hmem => absurd (isDigit_or_of_mem_toString hmem) (by decide),
    fun ch hch hopening => ?_⟩
  rcases isDigit_or_of_mem_toString (List.mem_of_getLast? hch) with hdigit | rfl
  · exact absurd hdigit (by simp [isDigit_of_mem_opening hopening])
  · exact absurd hopening (by decide)

/-! ## What a text refers to -/

/-- The text has a reference to a slot of the metadata buffer in it. -/
def RefersTo (text : String) (k : Nat) : Prop := (slotExpression k).toList <:+: text.toList

section
variable {text other : String} {k : Nat}

theorem not_refersTo_of_clear (h : Clear (slotExpression k).toList text.toList) :
    ¬ RefersTo text k := by
  refine h.absent ?_
  rw [toList_slotExpression]
  exact List.append_ne_nil_of_right_ne_nil _ (List.cons_ne_nil _ _)

theorem RefersTo.append_left (h : RefersTo text k) (other : String) :
    RefersTo (text ++ other) k := by
  rw [RefersTo, String.toList_append]
  exact h.trans (List.infix_append' [] _ _)

theorem RefersTo.append_right (h : RefersTo text k) (other : String) :
    RefersTo (other ++ text) k := by
  rw [RefersTo, String.toList_append]
  exact h.trans (List.suffix_append _ _).isInfix

theorem RefersTo.join {texts : List String} (h : RefersTo text k) (htext : text ∈ texts) :
    RefersTo (String.join texts) k := by
  induction texts with
  | nil => cases htext
  | cons first rest ih =>
    rw [String.join_cons]
    rcases List.mem_cons.1 htext with rfl | htext
    · exact h.append_left _
    · exact (ih htext).append_right _

/-- A reference to another slot is clear of the reference to a slot: digits tell them apart, and the
first letter of a reference is at its beginning only. -/
theorem clear_slotExpression {j : Nat} (hne : j ≠ k) :
    Clear (slotExpression k).toList (slotExpression j).toList := by
  have hbehind : 'm' ∉ "eta_buffer[".toList ++ (toString j).toList ++ [']'] := by
    simp only [List.mem_append, not_or]
    refine ⟨⟨by decide, fun hmem => ?_⟩, by decide⟩
    exact absurd (isDigit_of_mem_toString hmem) (by decide)
  have hchars : ∀ i, (slotExpression i).toList =
      'm' :: ("eta_buffer[".toList ++ (toString i).toList ++ [']']) := toList_slotExpression
  have hdiffer : ∀ {i i' : Nat}, i ≠ i' →
      ¬ (slotExpression i).toList <+: (slotExpression i').toList := by
    intro i i' hi hbegin
    have heq := eq_of_prefix (hbegin.trans (List.prefix_append _ []))
    exact hi heq
  rw [hchars j]
  refine .cons ?_ ?_ ?_
  · rw [← hchars j]
    exact hdiffer hne.symm
  · rw [← hchars j]
    exact hdiffer hne
  · rw [hchars k]
    exact .of_not_mem hbehind

end

namespace RoleValue

variable {role text : String} {k : Nat}

/-- The expression of a value is clear of a word if the text of its number is, and what stands
around an offset. -/
theorem clear_binding {word : List Char} (value : RoleValue) (role : String)
    (hopening : ∀ space : Space, Clear word ("((float *)(" ++ space.pointer ++ " + ").toList)
    (hclosing : Clear word "))".toList) (h : Clear word text.toList) :
    Clear word (value.binding role text).expression.toList := by
  cases value with
  | scalar extent => exact h
  | region a =>
    rw [binding, String.toList_append, String.toList_append]
    exact ((hopening a.space).append h).append hclosing

/-- The expression of a value is clear of a reference if the text of its number is. -/
theorem clear_slot_binding (value : RoleValue) (role : String)
    (h : Clear (slotExpression k).toList text.toList) :
    Clear (slotExpression k).toList (value.binding role text).expression.toList := by
  refine value.clear_binding role (fun space => ?_) (Inert.clear_slot (by decide) k) h
  exact Inert.clear_slot (by cases space <;> decide) k

/-- The expression of a value refers to what the text of its number refers to. -/
theorem refersTo_binding (value : RoleValue) (role : String) (h : RefersTo text k) :
    RefersTo (value.binding role text).expression k := by
  cases value with
  | scalar extent => exact h
  | region a => exact (h.append_right _).append_left _

/-- A number has no reference in it. -/
theorem not_refersTo_number (value : RoleValue) (role : String) (n : Int) (k : Nat) :
    ¬ RefersTo (value.binding role (toString n)).expression k :=
  not_refersTo_of_clear (value.clear_slot_binding role ((inert_toString n).clear_slot k))

/-- The expression that a slot is put in refers to this slot alone. -/
theorem refersTo_slot (value : RoleValue) (role : String) (slot k : Nat) :
    RefersTo (value.binding role (slotExpression slot)).expression k ↔ k = slot := by
  constructor
  · intro h
    by_contra hne
    have hclear := value.clear_slot_binding role (clear_slotExpression (k := k) (Ne.symm hne))
    exact not_refersTo_of_clear hclear h
  · intro h
    subst h
    exact value.refersTo_binding role (List.infix_refl _)

end RoleValue

/-! ## Texts without underscores -/

/-- The text has no underscore. -/
def Plain (text : String) : Prop := '_' ∉ text.toList

instance (text : String) : Decidable (Plain text) := inferInstanceAs (Decidable (¬ _))

@[simp] theorem plain_append {text other : String} :
    Plain (text ++ other) ↔ Plain text ∧ Plain other := by
  simp [Plain, not_or]

theorem plain_toString (n : Nat) : Plain (toString n) := by
  intro hmem
  exact absurd (isDigit_of_mem_toString hmem) (by decide)

/-- Code has no underscore if no name in it has one. -/
theorem Code.compositional_plain : Code.Compositional Plain where
  append h hother := plain_append.2 ⟨h, hother⟩
  numeral := plain_toString
  expression := by decide
  statement := by decide

/-! ## The source of a routine -/

/-- A text without underscores is inert before one that is. -/
theorem inert_append {text other : String} (htext : Plain text) (hother : Plain other)
    (hne : other.toList ≠ []) (h : Inert other.toList) : Inert (text ++ other).toList := by
  refine ⟨.inl (plain_append.2 ⟨htext, hother⟩), fun ch hch => h.2 ch ?_⟩
  rwa [String.toList_append, List.getLast?_append_of_ne_nil _ hne] at hch

/-- The entry name of an operator is inert: it has no bracket and ends in a digit. -/
theorem inert_ofOperator (op : Operator) : Inert (KernelName.ofOperator op).text.toList := by
  refine ⟨.inr fun hmem => ?_, fun ch hch hopening => ?_⟩
  · exact absurd (KernelName.isRoleChar_of_mem_ofOperator hmem) (by decide)
  · have hchars : (KernelName.ofOperator op).text.toList =
        op.kind.word ++ '_' :: ((sanitized op.name).toList ++ ['_']) ++ (toString op.id).toList := by
      rw [KernelName.toList_ofOperator]
      simp
    rw [hchars, List.getLast?_append_of_ne_nil _ (toList_toString_ne_nil op.id)] at hch
    have hdigit := isDigit_of_mem_toString (List.mem_of_getLast? hch)
    exact absurd hdigit (by simp [isDigit_of_mem_opening hopening])

namespace Routine

variable {r : Routine} {numbers : List Int64} {text text' entry : String}
  {texts texts' : List String}

/-- No name that the routine uses has an underscore. -/
def IsPlain (r : Routine) : Prop :=
  (∀ p ∈ r.parameters, Plain p.name) ∧ ∀ name ∈ r.body.names, Plain name

instance (r : Routine) : Decidable r.IsPlain := inferInstanceAs (Decidable (_ ∧ _))

/-- What stands before the value in the line of a parameter. -/
theorem inert_declaration {p : Parameter} (hp : Plain p.name) :
    Inert (Code.indentation 1 ++ p.declaration ++ " = ").toList := by
  have hdeclaration : Plain p.declaration := by
    unfold Parameter.declaration
    split <;> exact plain_append.2 ⟨by decide, hp⟩
  exact inert_append (plain_append.2 ⟨Code.compositional_plain.indentation 1, hdeclaration⟩)
    (by decide) (by decide) (by decide)

/-- What stands after the parameters. -/
theorem inert_body (hr : r.IsPlain) : Inert ("\n" ++ r.body.render 1 ++ "\x7d\n").toList :=
  inert_append (plain_append.2 ⟨by decide, Code.compositional_plain.render hr.2 1⟩) (by decide)
    (by decide) (by decide)

theorem replaces_line {p : Parameter} (hp : Plain p.name) (h : Replaces numbers text text') :
    Replaces numbers (p.line text) (p.line text') :=
  ((Replaces.inert (inert_declaration hp)).append h).append (.inert (by decide))

theorem replaces_lines {parameters : List Parameter} (hp : ∀ p ∈ parameters, Plain p.name)
    (h : List.Forall₂ (Replaces numbers) texts texts') :
    Replaces numbers (lines parameters texts) (lines parameters texts') := by
  refine Replaces.join ?_
  induction h generalizing parameters with
  | nil =>
    rw [List.zipWith_nil_right]
    exact .nil
  | cons htext _ ih =>
    cases parameters with
    | nil => exact .nil
    | cons p parameters =>
      obtain ⟨hname, hp⟩ := List.forall_mem_cons.1 hp
      exact .cons (replaces_line hname htext) (ih hp)

/-- In the source of a routine, what is replaced are the spellings of its values. -/
theorem replaces_source (hr : r.IsPlain) (hentry : Inert entry.toList)
    (h : List.Forall₂ (Replaces numbers) texts texts') :
    Replaces numbers (r.source entry texts) (r.source entry texts') := by
  have hhead : Replaces numbers ("(const int * " ++ metadataPointer ++ ")\n\x7b\n")
      ("(const int * " ++ metadataPointer ++ ")\n\x7b\n") := .inert (by decide)
  have hall := (((Replaces.inert (by decide : Inert "\nvoid ".toList)).append
    (.inert hentry)).append hhead).append ((replaces_lines hr.1 h).append (.inert (inert_body hr)))
  simpa only [source, String.append_assoc] using hall

end Routine

end TensorLowering
