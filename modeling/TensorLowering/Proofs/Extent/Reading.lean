import Mathlib.Data.List.SplitBy
import TensorLowering.Text.Blank
import TensorLowering.Proofs.Extent.Grammar
import TensorLowering.Proofs.Text.Decimal

/-!
# Reading extents

A text is cut into lexemes (`Extent.lexemes`), which are numerals, fixed signs or names. Blanks
separate lexemes, and a minus sign directly before digits belongs to the numeral. The tokens that
the lexemes spell are read by the grammar (`Extent.Reading`); what names mean is a parameter. The
lemmas below say how the reading of a text comes from the readings of its parts: numerals, names,
texts in parentheses, and two texts with an operator between blanks.
-/

namespace TensorLowering

namespace Extent

/-! ## Lexemes -/

/-- The characters that fixed signs are made of. -/
def signChars : List Char := ['(', ')', '+', '-', '*', '/']

/-- Whether names and numerals can contain the character. -/
def isWordChar (ch : Char) : Bool := !isBlank ch && !signChars.contains ch

/-- Whether a character belongs to the lexeme of the character before it. Words are not cut, the
strokes of a division are one sign, and a minus sign directly before digits is theirs. -/
def joins (ch next : Char) : Bool :=
  isWordChar ch && isWordChar next || ch == '/' && next == '/' || ch == '-' && next.isDigit

/-- The lexemes of a text. -/
def lexemes (chars : List Char) : List (List Char) :=
  (chars.splitBy joins).filter fun lexeme => !lexeme.all isBlank

section
variable {chars rest : List Char} {ch : Char}

/-- A character that joins nothing after it ends its lexeme. -/
theorem lexemes_cons (h : ∀ next, joins ch next = false) :
    lexemes (ch :: rest) = lexemes [ch] ++ lexemes rest := by
  have hbreak : ∀ x ∈ [ch].getLast?, ∀ y ∈ rest.head?, joins x y = false := by
    intro x hx y _
    rw [List.getLast?_singleton, Option.mem_some_iff] at hx
    exact hx ▸ h y
  unfold lexemes
  rw [← List.filter_append, ← List.splitBy_append hbreak, List.singleton_append]

/-- A character that joins nothing before it begins a lexeme. -/
theorem lexemes_append_cons (h : ∀ before, joins before ch = false) :
    lexemes (chars ++ ch :: rest) = lexemes chars ++ lexemes (ch :: rest) := by
  unfold lexemes
  rw [List.splitBy_append_cons rest fun before _ => h before, List.filter_append]

/-- A character joins nothing before it that is neither of a word nor a stroke. -/
theorem joins_eq_false {before : Char} (hword : isWordChar ch = false) (hdigit : ch.isDigit = false)
    (hstroke : ch ≠ '/') : joins before ch = false := by
  simp [joins, hword, hdigit, hstroke]

/-- Joined characters are one lexeme, unless they are blank. -/
theorem lexemes_of_isChain (hchain : chars.IsChain fun x y => joins x y = true)
    (hch : ch ∈ chars) (hblank : isBlank ch = false) : lexemes chars = [chars] := by
  have hkept : (!chars.all isBlank) = true := by
    rw [Bool.not_eq_true', List.all_eq_false]
    exact ⟨ch, hch, by simp [hblank]⟩
  rw [lexemes, List.splitBy_of_isChain (List.ne_nil_of_mem hch) hchain]
  exact List.filter_cons_of_pos hkept

/-- Characters of words are joined. -/
theorem isChain_of_isWordChar (h : ∀ ch ∈ chars, isWordChar ch = true) :
    chars.IsChain fun x y => joins x y = true := by
  refine (List.pairwise_of_forall_mem_list fun x hx y hy => ?_).isChain
  rw [joins, h x hx, h y hy]
  rfl

/-- A word is one lexeme. -/
theorem lexemes_word (hne : chars ≠ []) (h : ∀ ch ∈ chars, isWordChar ch = true) :
    lexemes chars = [chars] := by
  obtain ⟨ch, hch⟩ := List.exists_mem_of_ne_nil _ hne
  have hword := h ch hch
  rw [isWordChar, Bool.and_eq_true, Bool.not_eq_true'] at hword
  exact lexemes_of_isChain (isChain_of_isWordChar h) hch hword.1

theorem isWordChar_of_isDigit (h : ch.isDigit = true) : isWordChar ch = true := by
  have hrange : 48 ≤ ch.toNat ∧ ch.toNat ≤ 57 := by
    rw [Char.isDigit, Bool.and_eq_true, decide_eq_true_eq, decide_eq_true_eq] at h
    exact h
  have hblank : isBlank ch = false := by
    simp only [isBlank, blankRanges, List.any_cons, List.any_nil, Bool.or_false,
      Bool.or_eq_false_iff, Bool.and_eq_false_iff, decide_eq_false_iff_not]
    omega
  have hsign : ch ∉ signChars := by
    intro hmem
    have hnone : signChars.all (fun sign => !sign.isDigit) = true := by decide
    have hch := List.all_eq_true.1 hnone ch hmem
    rw [h] at hch
    cases hch
  rw [isWordChar, hblank, Bool.not_false, Bool.true_and, Bool.not_eq_true', ← Bool.not_eq_true,
    List.contains_iff_mem]
  exact hsign

/-- A blank ends a lexeme and is none. -/
theorem lexemes_append_blank : lexemes (chars ++ ' ' :: rest) = lexemes chars ++ lexemes rest := by
  rw [lexemes_append_cons fun _ => joins_eq_false (by decide) (by decide) (by decide),
    lexemes_cons fun _ => rfl]
  rfl

/-- Parentheses are lexemes of their own. -/
theorem lexemes_parentheses :
    lexemes ('(' :: (chars ++ [')'])) = ['('] :: (lexemes chars ++ [[')']]) := by
  rw [lexemes_cons fun _ => rfl,
    lexemes_append_cons fun _ => joins_eq_false (by decide) (by decide) (by decide)]
  rfl

end

/-! ## Tokens -/

/-- The fixed signs. -/
def fixedToken? : List Char → Option Token
  | ['('] => some .opening
  | [')'] => some .closing
  | ['+'] => some (.sign .add)
  | ['-'] => some (.sign .sub)
  | ['*'] => some (.sign .mul)
  | ['/', '/'] => some (.sign .floorDiv)
  | _ => none

/-- Every fixed sign has a character that no word has. -/
theorem exists_of_fixedToken? {lexeme : List Char} {token : Token}
    (h : fixedToken? lexeme = some token) : ∃ ch ∈ lexeme, isWordChar ch = false := by
  unfold fixedToken? at h
  split at h
  all_goals first | exact ⟨_, List.mem_cons_self, by decide⟩ | cases h

section
variable (names : String → Option SymbolId)

/-- The token that a lexeme spells: a literal if it is the numeral of a word, a fixed sign, or the
symbol that it names. -/
def token? (lexeme : List Char) : Option Token :=
  match integer? lexeme with
  | some n => (word? n).map .literal
  | none => fixedToken? lexeme <|> (names (String.ofList lexeme)).map .symbol

/-- The tokens of a text, if each of its lexemes spells one. -/
def tokens? (text : String) : Option (List Token) := (lexemes text.toList).mapM (token? names)

/-- The text reads as the extent. -/
def Reading (level : Level) (text : String) (a : Extent) : Prop :=
  ∃ tokens, tokens? names text = some tokens ∧ Reads level tokens a

end

/-- The text can be a name, as every identifier can: it is not empty, it has no blanks, parentheses
and operator signs, and its first character is no digit. -/
def IsName (text : String) : Prop :=
  text.toList ≠ [] ∧ (∀ ch ∈ text.toList, isWordChar ch = true) ∧
    ∀ ch ∈ text.toList.head?, ch.isDigit = false

-- Decided by a look at the text, not by trying all characters.
instance (text : String) : Decidable (IsName text) :=
  @instDecidableAnd _ _ inferInstance
    (@instDecidableAnd _ _ (List.decidableBAll _ _) (Option.decidableForallMem _))

section
variable {names : String → Option SymbolId} {text : String} {a b : Extent} {k : SymbolId}
  {op : BinaryOp}

/-- A text reads as one extent at most. -/
theorem Reading.unique (ha : Reading names .sum text a) (hb : Reading names .sum text b) :
    a = b := by
  obtain ⟨ts, hts, ha⟩ := ha
  obtain ⟨us, hus, hb⟩ := hb
  rw [hts, Option.some.injEq] at hus
  exact ha.unique (hus ▸ hb)

theorem Reading.loosen {level looser : Level} (h : Reading names level text a)
    (hle : looser.tightness ≤ level.tightness) : Reading names looser text a := by
  obtain ⟨ts, hts, h⟩ := h
  exact ⟨ts, hts, h.loosen hle⟩

/-- A text that reads at all reads as a sum. -/
theorem Reading.loosen_sum {level : Level} (h : Reading names level text a) :
    Reading names .sum text a := h.loosen (by cases level <;> decide)

/-- The digits of a word are one lexeme. -/
theorem lexemes_toString (n : Int) : lexemes (toString n).toList = [(toString n).toList] := by
  have hword : ∀ m : Nat, ∀ ch ∈ (toString m).toList, isWordChar ch = true :=
    fun m ch hch => isWordChar_of_isDigit (isDigit_of_mem_toString hch)
  cases n with
  | ofNat m => exact lexemes_word (toList_toString_ne_nil m) (hword m)
  | negSucc m =>
    rw [toList_toString_negSucc]
    refine lexemes_of_isChain ?_ List.mem_cons_self (by decide)
    refine List.isChain_cons.2 ⟨fun y hy => ?_, isChain_of_isWordChar (hword (m + 1))⟩
    have hdigit : y.isDigit = true := isDigit_of_mem_toString (List.mem_of_head? hy)
    simp [joins, hdigit]

theorem reading_literal (n : Int64) :
    Reading names .operand (toString n.toInt) (value n) := by
  refine ⟨[.literal n], ?_, .literal n⟩
  rw [tokens?, lexemes_toString, List.mapM_cons, token?, integer?_toString]
  simp [word?_toInt]

/-- A name is no numeral. -/
theorem IsName.integer?_eq (h : IsName text) : integer? text.toList = none := by
  obtain ⟨-, hword, hfirst⟩ := h
  refine integer?_eq_none fun ch hch => ⟨hfirst ch hch, ?_⟩
  intro hsign
  have hminus := hword ch (List.mem_of_head? hch)
  rw [hsign] at hminus
  cases hminus

/-- A name is no fixed sign. -/
theorem IsName.fixedToken?_eq (h : IsName text) : fixedToken? text.toList = none := by
  obtain ⟨-, hword, -⟩ := h
  cases hsign : fixedToken? text.toList with
  | none => rfl
  | some token =>
    obtain ⟨ch, hch, hno⟩ := exists_of_fixedToken? hsign
    rw [hword ch hch] at hno
    cases hno

/-- A name reads as the symbol that it means. -/
theorem reading_symbol (hname : IsName text) (hk : names text = some k) :
    Reading names .operand text (symbol k) := by
  refine ⟨[.symbol k], ?_, .symbol k⟩
  rw [tokens?, lexemes_word hname.1 hname.2.1, List.mapM_cons, token?, hname.integer?_eq]
  simp [hname.fixedToken?_eq, hk]

/-- A text in parentheses is an operand. -/
theorem Reading.grouped (h : Reading names .sum text a) :
    Reading names .operand ("(" ++ text ++ ")") a := by
  obtain ⟨ts, hts, h⟩ := h
  refine ⟨.opening :: ts ++ [.closing], ?_, h.grouped⟩
  have hchars : ("(" ++ text ++ ")").toList = '(' :: (text.toList ++ [')']) := by
    rw [String.toList_append, String.toList_append]
    rfl
  have hopening : token? names ['('] = some .opening := rfl
  have hclosing : token? names [')'] = some .closing := rfl
  unfold tokens? at hts ⊢
  rw [hchars, lexemes_parentheses]
  simp [hopening, hclosing, hts]

/-- The tokens of an operation are those of its operands with its sign between them. -/
theorem tokens?_infix {left right : String} {ts us : List Token} (op : BinaryOp)
    (hleft : tokens? names left = some ts) (hright : tokens? names right = some us) :
    tokens? names (left ++ " " ++ op.sign ++ " " ++ right) = some (ts ++ .sign op :: us) := by
  have hchars : (left ++ " " ++ op.sign ++ " " ++ right).toList =
      left.toList ++ ' ' :: (op.sign.toList ++ ' ' :: right.toList) := by
    simp [String.toList_append]
  have hsign : (lexemes op.sign.toList).mapM (token? names) = some [.sign op] := by
    cases op <;> rfl
  unfold tokens? at hleft hright ⊢
  rw [hchars, lexemes_append_blank, lexemes_append_blank, List.mapM_append, List.mapM_append,
    hleft, hsign, hright]
  rfl

theorem Reading.multiplied {left right : String} (hop : op = .mul ∨ op = .floorDiv)
    (hleft : Reading names .product left a) (hright : Reading names .operand right b) :
    Reading names .product (left ++ " " ++ op.sign ++ " " ++ right) (binary op a b) := by
  obtain ⟨ts, hts, ha⟩ := hleft
  obtain ⟨us, hus, hb⟩ := hright
  exact ⟨_, tokens?_infix op hts hus, .multiplied hop ha hb⟩

theorem Reading.added {left right : String} (hop : op = .add ∨ op = .sub)
    (hleft : Reading names .sum left a) (hright : Reading names .product right b) :
    Reading names .sum (left ++ " " ++ op.sign ++ " " ++ right) (binary op a b) := by
  obtain ⟨ts, hts, ha⟩ := hleft
  obtain ⟨us, hus, hb⟩ := hright
  exact ⟨_, tokens?_infix op hts hus, .added hop ha hb⟩

end

end Extent

end TensorLowering
