/-!
# Words that do not occur

A text is `Clear` of a word if no occurrence of the word begins in it, whatever text comes after it.
Other than that the word does not occur, this passes to texts that are put together
(`Clear.append`).
-/

namespace TensorLowering

/-- No occurrence of the word begins in the text, whatever comes after: no end of the text begins
with the word, and none is what the word begins with. -/
inductive Clear (word : List Char) : List Char → Prop
  | nil : Clear word []
  | cons {ch : Char} {rest : List Char} (hword : ¬ word <+: ch :: rest)
      (hend : ¬ ch :: rest <+: word) (hrest : Clear word rest) : Clear word (ch :: rest)

namespace Clear

variable {word text other : List Char}

theorem cons_iff {ch : Char} {rest : List Char} :
    Clear word (ch :: rest) ↔
      ¬ word <+: ch :: rest ∧ ¬ ch :: rest <+: word ∧ Clear word rest := by
  constructor
  · intro h
    cases h with
    | cons hword hend hrest => exact ⟨hword, hend, hrest⟩
  · rintro ⟨hword, hend, hrest⟩
    exact .cons hword hend hrest

instance decidable (word : List Char) : (text : List Char) → Decidable (Clear word text)
  | [] => .isTrue .nil
  | _ :: rest =>
    have := decidable word rest
    decidable_of_iff' _ cons_iff

/-- The word is not in front of a text that goes on with another one. -/
theorem not_begins (h : Clear word text) (hne : text ≠ []) (other : List Char) :
    ¬ word <+: text ++ other := by
  cases h with
  | nil => exact absurd rfl hne
  | cons hword hend hrest =>
    intro hbegin
    rcases List.prefix_or_prefix_of_prefix hbegin (List.prefix_append _ _) with hin | hout
    · exact hword hin
    · exact hend hout

theorem append (h : Clear word text) (hother : Clear word other) : Clear word (text ++ other) := by
  induction h with
  | nil => exact hother
  | @cons ch rest hword hend hrest ih =>
    refine .cons ((cons hword hend hrest).not_begins (List.cons_ne_nil _ _) other) ?_ ih
    exact fun hbegin => hend ((List.prefix_append (ch :: rest) other).trans hbegin)

/-- A text without the first character of the word is clear of it. -/
theorem of_not_mem {ch : Char} (h : ch ∉ text) : Clear (ch :: word) text := by
  induction text with
  | nil => exact .nil
  | cons first rest ih =>
    rw [List.mem_cons, not_or] at h
    refine .cons (fun hword => ?_) (fun hend => ?_) (ih h.2)
    · exact h.1 (List.cons_prefix_cons.1 hword).1
    · exact h.1 (List.cons_prefix_cons.1 hend).1.symm

/-- A text that is clear of what a word begins with is clear of the word. -/
theorem of_prefix {full : List Char} (hfull : word <+: full) (h : Clear word text) :
    Clear full text := by
  induction h with
  | nil => exact .nil
  | cons hword hend _ ih =>
    refine .cons (fun hbegin => hword (hfull.trans hbegin)) (fun hbegin => ?_) ih
    rcases List.prefix_or_prefix_of_prefix hbegin hfull with hin | hout
    · exact hend hin
    · exact hword hout

/-- The end of a text that is clear of a word is clear of it. -/
theorem of_suffix (h : Clear word text) (hother : other <:+ text) : Clear word other := by
  induction h with
  | nil =>
    rw [List.suffix_nil.1 hother]
    exact .nil
  | @cons ch rest hword hend hrest ih =>
    rcases List.suffix_cons_iff.1 hother with rfl | hother
    · exact .cons hword hend hrest
    · exact ih hother

/-- The word does not occur in the text. -/
theorem absent (hne : word ≠ []) (h : Clear word text) : ¬ word <:+: text := by
  induction h with
  | nil =>
    rw [List.infix_nil]
    exact hne
  | cons hword _ _ ih =>
    rw [List.infix_cons_iff, not_or]
    exact ⟨hword, ih⟩

/-- Texts that are clear of a word are clear of it when they are joined. -/
theorem join {texts : List String} (h : ∀ text ∈ texts, Clear word text.toList) :
    Clear word (String.join texts).toList := by
  induction texts with
  | nil => exact .nil
  | cons text texts ih =>
    obtain ⟨htext, htexts⟩ := List.forall_mem_cons.1 h
    rw [String.join_cons, String.toList_append]
    exact htext.append (ih htexts)

end Clear

end TensorLowering
