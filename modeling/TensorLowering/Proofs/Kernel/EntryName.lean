import TensorLowering.Graph.Script
import TensorLowering.Kernel.Name
import TensorLowering.Proofs.Template.Token
import TensorLowering.Proofs.Text.Decimal

/-!
# Entry names

The entry name of an operator ends in its handle. Handles are digits and digits are no underscores,
so the handle is what stands behind the last underscore, whatever text the user has called the
operator (`KernelName.id_eq_of_text_eq`). A suffix puts more underscores behind the handle, and then
the name of another operator can go on where this one ends: `KernelName.suffixed_eq_iff` says when
two suffixed names are one.
-/

namespace TensorLowering

/-! ## Identifiers -/

/-- The words that the C language keeps for itself. -/
def reservedWords : List String :=
  ["auto", "break", "case", "char", "const", "continue", "default", "do", "double", "else", "enum",
    "extern", "float", "for", "goto", "if", "inline", "int", "long", "register", "restrict",
    "return", "short", "signed", "sizeof", "static", "struct", "switch", "typedef", "union",
    "unsigned", "void", "volatile", "while", "_Alignas", "_Alignof", "_Atomic", "_Bool", "_Complex",
    "_Generic", "_Imaginary", "_Noreturn", "_Static_assert", "_Thread_local"]

/-- An identifier of the C language: ASCII letters, digits and underscores, no digit in front, and
no reserved word. -/
structure IsIdentifier (text : String) : Prop where
  word : IsRole text
  start : ∀ ch ∈ text.toList.head?, ch.isDigit = false
  unreserved : text ∉ reservedWords

/-- What is made of a user's text is made of letters, digits and underscores. -/
theorem isRole_sanitized (text : String) : IsRole (sanitized text) := by
  rw [Segment.isRole_iff]
  unfold sanitized
  split
  · have hchars : "op".toList.all Segment.isRoleChar = true := by decide
    exact ⟨by decide, fun _ => List.all_eq_true.1 hchars _⟩
  · next hne =>
    rw [String.toList_ofList]
    refine ⟨fun h => hne ?_, fun ch hch => ?_⟩
    · rw [List.map_eq_nil_iff, String.toList_eq_nil_iff] at h
      rw [h]
      rfl
    · obtain ⟨before, -, rfl⟩ := List.mem_map.1 hch
      split
      · next halnum => simp [Segment.isRoleChar, halnum]
      · rfl

/-! ## The parts of a name -/

/-- What an entry name begins with: the kind of the operator in small letters. -/
def OperatorKind.word (kind : OperatorKind) : List Char := snakeCase false kind.name.toList

/-- The words of the two kinds differ at their first letter. -/
theorem OperatorKind.name_eq_of_word {kind other : OperatorKind} {rest rest' : List Char}
    (h : kind.word ++ rest = other.word ++ rest') : kind.name = other.name := by
  have hscale : ∀ axis, (axiswiseScale axis).word = 'a' :: "xiswise_scale".toList := by
    intro axis
    rw [word, name]
    decide
  have hdeconvolution : ∀ p, (deconvolution p).word = 'd' :: "econvolution2d".toList := by
    intro p
    rw [word, name]
    decide
  cases kind with
  | axiswiseScale axis =>
    cases other with
    | axiswiseScale axis' => rfl
    | deconvolution p =>
      rw [hscale, hdeconvolution] at h
      exact absurd (List.cons.inj h).1 (by decide)
  | deconvolution p =>
    cases other with
    | axiswiseScale axis =>
      rw [hscale, hdeconvolution] at h
      exact absurd (List.cons.inj h).1 (by decide)
    | deconvolution p' => rfl

namespace KernelName

variable {a b op : Operator} {ss ts : List String}

theorem toList_ofOperator (op : Operator) :
    (ofOperator op).text.toList =
      op.kind.word ++ '_' :: ((sanitized op.name).toList ++ '_' :: (toString op.id).toList) := by
  simp only [ofOperator, String.toList_append, String.toList_ofList, OperatorKind.word]
  simp

theorem underscore_not_mem_toString (n : Nat) : '_' ∉ (toString n).toList := by
  intro hmem
  exact absurd (isDigit_of_mem_toString hmem) (by decide)

/-- The characters of a name are letters, digits and underscores. -/
theorem isRoleChar_of_mem_ofOperator {ch : Char} (h : ch ∈ (ofOperator op).text.toList) :
    Segment.isRoleChar ch = true := by
  have hword : op.kind.word.all Segment.isRoleChar = true := by
    cases op.kind <;> rw [OperatorKind.word, OperatorKind.name] <;> decide
  have hname := (Segment.isRole_iff.1 (isRole_sanitized op.name)).2
  simp only [toList_ofOperator, List.mem_append, List.mem_cons] at h
  rcases h with h | rfl | h | rfl | h
  · exact List.all_eq_true.1 hword ch h
  · rfl
  · exact hname ch h
  · rfl
  · simp [Segment.isRoleChar, Char.isAlphanum, isDigit_of_mem_toString h]

/-- An entry name is an identifier, whatever text the user has called the operator. -/
theorem isIdentifier_ofOperator (op : Operator) : IsIdentifier (ofOperator op).text := by
  have hword : 14 ≤ op.kind.word.length ∧ op.kind.word.head?.all (!·.isDigit) = true := by
    cases op.kind <;> rw [OperatorKind.word, OperatorKind.name] <;> decide
  have hlong : 14 < (ofOperator op).text.toList.length := by
    rw [toList_ofOperator, List.length_append, List.length_cons]
    omega
  refine ⟨Segment.isRole_iff.2 ⟨?_, fun ch => isRoleChar_of_mem_ofOperator⟩, ?_, ?_⟩
  · exact List.ne_nil_of_length_pos (by omega)
  · rw [toList_ofOperator, List.head?_append_of_ne_nil _ (List.ne_nil_of_length_pos (by omega))]
    intro ch hch
    have hstart := hword.2
    rw [hch] at hstart
    simpa using hstart
  · -- No reserved word is as long as the word of a kind and more.
    intro hmem
    have hshort : ∀ word ∈ reservedWords, word.toList.length ≤ 14 := by decide
    exact absurd (hshort _ hmem) (by omega)

/-- The name with suffixes, one after the other. -/
def withSuffixes (n : KernelName) (suffixes : List String) : KernelName :=
  suffixes.foldl withSuffix n

/-- What suffixes add to a name. -/
def tail (suffixes : List String) : String :=
  String.join (suffixes.map fun suffix => "_" ++ sanitized suffix)

theorem text_withSuffixes (n : KernelName) (suffixes : List String) :
    (n.withSuffixes suffixes).text = n.text ++ tail suffixes := by
  induction suffixes generalizing n with
  | nil => exact String.append_empty.symm
  | cons suffix rest ih =>
    rw [withSuffixes, List.foldl_cons, ← withSuffixes, ih, tail, tail, List.map_cons,
      String.join_cons, withSuffix]
    simp only [String.append_assoc]

/-- What suffixes add begins with an underscore. -/
theorem tail_cases (suffixes : List String) :
    (tail suffixes).toList = [] ∨ ∃ rest, (tail suffixes).toList = '_' :: rest := by
  cases suffixes with
  | nil => exact .inl rfl
  | cons suffix others =>
    refine .inr ⟨(sanitized suffix).toList ++ (tail others).toList, ?_⟩
    simp only [tail, List.map_cons, String.join_cons, String.toList_append]
    simp

/-! ## Names that are one -/

/-- Texts without the character behind its last occurrence are the same behind it and before it. -/
theorem eq_of_last_eq {α : Type} {c : α} {xs ys zs ws : List α} (hy : c ∉ ys) (hw : c ∉ ws)
    (h : xs ++ c :: ys = zs ++ c :: ws) : xs = zs ∧ ys = ws := by
  rcases List.append_eq_append_iff.1 h with ⟨more, rfl, hmore⟩ | ⟨more, rfl, hmore⟩
  · cases more with
    | nil => exact ⟨(List.append_nil _).symm, (List.cons.inj hmore).2⟩
    | cons d more =>
      obtain ⟨-, rfl⟩ := List.cons.inj hmore
      exact absurd (List.mem_append_right _ List.mem_cons_self) hy
  · cases more with
    | nil => exact ⟨List.append_nil _, (List.cons.inj hmore).2.symm⟩
    | cons d more =>
      obtain ⟨-, rfl⟩ := List.cons.inj hmore
      exact absurd (List.mem_append_right _ List.mem_cons_self) hw

/-- The second operator's name goes on where the plain name of the first one ends, as far as the
suffixes of the first go on with the second one's handle and suffixes. -/
def Continues (a : Operator) (ss : List String) (b : Operator) (ts : List String) : Prop :=
  a.kind.name = b.kind.name ∧ ∃ middle : String,
    sanitized b.name = sanitized a.name ++ "_" ++ toString a.id ++ middle ∧
    tail ss = middle ++ "_" ++ toString b.id ++ tail ts

/-- Names that go on like this are one. -/
theorem Continues.eq (h : Continues a ss b ts) :
    (ofOperator a).withSuffixes ss = (ofOperator b).withSuffixes ts := by
  obtain ⟨hkind, middle, hname, htail⟩ := h
  have htext : ((ofOperator a).withSuffixes ss).text = ((ofOperator b).withSuffixes ts).text := by
    rw [text_withSuffixes, text_withSuffixes, htail, ofOperator, ofOperator, hkind, hname]
    simp only [String.append_assoc]
  cases ha : (ofOperator a).withSuffixes ss
  cases hb : (ofOperator b).withSuffixes ts
  rw [ha, hb] at htext
  exact congrArg KernelName.mk htext

/-- A longer plain name under equal names is a continuation: the underscore before its handle stands
behind the handle of the shorter one. -/
theorem continues_of_append (hid : a.id ≠ b.id) (hkind : a.kind.name = b.kind.name)
    {more : List Char}
    (hlong : (sanitized b.name).toList ++ '_' :: (toString b.id).toList =
      (sanitized a.name).toList ++ '_' :: (toString a.id).toList ++ more)
    (hrest : (tail ss).toList = more ++ (tail ts).toList) : Continues a ss b ts := by
  have hunder := underscore_not_mem_toString
  rcases more with - | ⟨c, more⟩
  · rw [List.append_nil] at hlong
    obtain ⟨-, hdigits⟩ := eq_of_last_eq (hunder b.id) (hunder a.id) hlong
    exact absurd (toString_injective (String.toList_inj.1 hdigits)).symm hid
  · obtain rfl : c = '_' := by
      rcases tail_cases ss with hnil | ⟨rest, hcons⟩
      · rw [hnil] at hrest
        cases hrest
      · rw [hcons] at hrest
        exact (List.cons.inj hrest).1.symm
    have hsplit : ∃ middle, (sanitized b.name).toList =
          (sanitized a.name).toList ++ '_' :: (toString a.id).toList ++ middle ∧
        '_' :: more = middle ++ '_' :: (toString b.id).toList := by
      rcases List.append_eq_append_iff.1 hlong with ⟨middle, hname, hmore⟩ | ⟨middle, hname, hmore⟩
      · cases middle with
        | nil => exact ⟨[], by rw [List.append_nil, hname, List.append_nil], hmore.symm⟩
        | cons d middle =>
          obtain ⟨-, hdigits⟩ := List.cons.inj hmore
          exact absurd (hdigits ▸ List.mem_append_right _ List.mem_cons_self) (hunder b.id)
      · exact ⟨middle, hname, hmore⟩
    obtain ⟨middle, hname, hmore⟩ := hsplit
    refine ⟨hkind, String.ofList middle, String.toList_inj.1 ?_, String.toList_inj.1 ?_⟩
    · rw [hname]
      simp
    · rw [hrest, hmore]
      simp

/-- Names of operators with different handles are one only if the name of one continues that of the
other. -/
theorem continues_of_eq (hid : a.id ≠ b.id)
    (h : (ofOperator a).withSuffixes ss = (ofOperator b).withSuffixes ts) :
    Continues a ss b ts ∨ Continues b ts a ss := by
  have htext := congrArg (fun n => n.text.toList) h
  simp only [text_withSuffixes, String.toList_append, toList_ofOperator] at htext
  rw [List.append_assoc, List.append_assoc] at htext
  have hkind : a.kind.name = b.kind.name := OperatorKind.name_eq_of_word htext
  have hword : a.kind.word = b.kind.word := by rw [OperatorKind.word, hkind, OperatorKind.word]
  rw [hword, List.append_cancel_left_eq, List.cons_append, List.cons_append] at htext
  rcases List.append_eq_append_iff.1 (List.cons.inj htext).2 with
    ⟨more, hlong, hrest⟩ | ⟨more, hlong, hrest⟩
  · exact .inl (continues_of_append hid hkind hlong hrest)
  · exact .inr (continues_of_append hid.symm hkind.symm hlong hrest)

/-- What continues has fewer underscores left in its suffixes. -/
theorem Continues.count_lt (h : Continues a ss b ts) :
    (tail ts).toList.count '_' < (tail ss).toList.count '_' := by
  obtain ⟨-, middle, -, htail⟩ := h
  rw [htail]
  simp only [String.toList_append, List.count_append]
  have : "_".toList.count '_' = 1 := by decide
  omega

/-- Without suffixes the handle can be read off the entry name. -/
theorem id_eq_of_text_eq (h : (ofOperator a).text = (ofOperator b).text) : a.id = b.id := by
  by_contra hid
  have heq : (ofOperator a).withSuffixes [] = (ofOperator b).withSuffixes [] :=
    congrArg KernelName.mk h
  rcases continues_of_eq hid heq with hc | hc
  · exact absurd hc.count_lt (Nat.lt_irrefl _)
  · exact absurd hc.count_lt (Nat.lt_irrefl _)

/-- Suffixed names of operators with different handles are one exactly when the name of one
continues that of the other. That needs more underscores in the suffixes of one than in those of the
other, so names without suffixes, with the same suffixes, or with equally many words in their
suffixes are different. -/
theorem suffixed_eq_iff (hid : a.id ≠ b.id) (ss ts : List String) :
    ((ofOperator a).withSuffixes ss = (ofOperator b).withSuffixes ts ↔
      Continues a ss b ts ∨ Continues b ts a ss) ∧
    ((tail ss).toList.count '_' = (tail ts).toList.count '_' →
      (ofOperator a).withSuffixes ss ≠ (ofOperator b).withSuffixes ts) := by
  refine ⟨⟨continues_of_eq hid, fun h => ?_⟩, fun hcount heq => ?_⟩
  · rcases h with h | h
    · exact h.eq
    · exact h.eq.symm
  · rcases continues_of_eq hid heq with h | h
    · exact absurd h.count_lt (by omega)
    · exact absurd h.count_lt (by omega)

/-- Two operators that the user has given one name, with one suffix for both. -/
theorem suffixed_eq_iff_sameName :
    (ofOperator ⟨0, "block.1/scale", .axiswiseScale .c, none⟩).withSuffixes ["tail"] ≠
      (ofOperator ⟨1, "block.1/scale", .axiswiseScale .c, none⟩).withSuffixes ["tail"] :=
  (suffixed_eq_iff (by decide) ["tail"] ["tail"]).2 rfl

/-- Two scalings, the second of which is called after the first and its handle. -/
def numberedName : Graph :=
  Graph.empty.replay [.addOperator (some "a") (.axiswiseScale .c),
    .addOperator (some "a_0") (.axiswiseScale .c)]

/-- With the handle of the second as its suffix, the first has the name of the second. -/
theorem suffixed_numberedName :
    numberedName.Reachable ∧ ∃ a b, a ∈ numberedName.operators ∧ b ∈ numberedName.operators ∧
      a.id ≠ b.id ∧ (ofOperator a).withSuffixes ["1"] = (ofOperator b).withSuffixes [] :=
  ⟨⟨_, rfl⟩, ⟨0, "a", .axiswiseScale .c, none⟩, ⟨1, "a_0", .axiswiseScale .c, none⟩, by decide,
    by decide, by decide, by decide⟩

end KernelName

end TensorLowering
