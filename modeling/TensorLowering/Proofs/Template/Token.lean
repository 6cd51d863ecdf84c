import Mathlib.Data.List.Forall2
import Mathlib.Data.List.TakeWhile
import TensorLowering.Template.Parser

/-!
# Tokens of a template text

What a token is, said without the scanner: the two fixed tokens, and a load of a role that is a
nonempty text of ASCII letters, digits and underscores (`Segment.IsToken`). The scanner finds a
token at the front of a text exactly when the spelling of a token stands there
(`Segment.leadingToken?_eq_some`), so no text begins with the spellings of two tokens.
-/

namespace TensorLowering

/-- A nonempty text of ASCII letters, digits and underscores. -/
def IsRole (role : String) : Prop :=
  role ≠ "" ∧ ∀ ch ∈ role.toList,
    'A' ≤ ch ∧ ch ≤ 'Z' ∨ 'a' ≤ ch ∧ ch ≤ 'z' ∨ '0' ≤ ch ∧ ch ≤ '9' ∨ ch = '_'

namespace Segment

variable {chars : List Char} {role : String} {token : Segment}

/-- The segment is a token, and loads a role that a text can name if it loads one. -/
def IsToken : Segment → Prop
  | literal _ => False
  | functionName => True
  | metaBuffer => True
  | load role => IsRole role

theorem isRoleChar_iff {ch : Char} : isRoleChar ch = true ↔
    'A' ≤ ch ∧ ch ≤ 'Z' ∨ 'a' ≤ ch ∧ ch ≤ 'z' ∨ '0' ≤ ch ∧ ch ≤ '9' ∨ ch = '_' := by
  delta isRoleChar Char.isAlphanum Char.isAlpha Char.isUpper Char.isLower Char.isDigit
  simp [Char.le_def, UInt32.le_iff_toNat_le, or_assoc]

theorem isRole_iff : IsRole role ↔ role.toList ≠ [] ∧ ∀ ch ∈ role.toList, isRoleChar ch = true := by
  simp only [IsRole, isRoleChar_iff, ne_eq, String.toList_eq_nil_iff]

/-! ## Roles -/

/-- The characters of a role end where the load closes. -/
theorem span_role (hrole : IsRole role) (rest : List Char) :
    (role.toList ++ (loadClosing.toList ++ rest)).takeWhile isRoleChar = role.toList ∧
      (role.toList ++ (loadClosing.toList ++ rest)).dropWhile isRoleChar =
        loadClosing.toList ++ rest := by
  obtain ⟨-, hchars⟩ := isRole_iff.1 hrole
  constructor
  · rw [List.takeWhile_append_of_pos hchars]
    exact List.append_nil _
  · rw [List.dropWhile_append_of_pos hchars]
    rfl

theorem leadingRole?_eq_some :
    leadingRole? chars = some role ↔
      IsRole role ∧ role.toList ++ loadClosing.toList <+: chars := by
  constructor
  · intro h
    simp only [leadingRole?, Option.ite_none_right_eq_some, Option.some.injEq, Bool.and_eq_true,
      Bool.not_eq_true', List.isPrefixOf_iff_prefix] at h
    obtain ⟨⟨hne, rest, hrest⟩, rfl⟩ := h
    rw [isRole_iff, String.toList_ofList]
    refine ⟨⟨by simpa using hne, fun ch => List.mem_takeWhile_imp⟩, rest, ?_⟩
    rw [List.append_assoc, hrest, List.takeWhile_append_dropWhile]
  · rintro ⟨hrole, rest, rfl⟩
    obtain ⟨htake, hdrop⟩ := span_role hrole rest
    have hne : role.toList.isEmpty = false := by simpa using (isRole_iff.1 hrole).1
    have hclosing : loadClosing.toList.isPrefixOf (loadClosing.toList ++ rest) = true :=
      List.isPrefixOf_iff_prefix.2 (List.prefix_append _ _)
    simp [leadingRole?, htake, hdrop, hne, hclosing]

/-! ## Tokens -/

theorem toList_load :
    (load role).text.toList = loadOpening.toList ++ (role.toList ++ loadClosing.toList) := by
  rw [text, String.toList_append, String.toList_append, List.append_assoc]

/-- A token stands at the front of a text exactly when the text begins with its spelling. -/
theorem leadingToken?_eq_some :
    leadingToken? chars = some token ↔ token.IsToken ∧ token.text.toList <+: chars := by
  constructor
  · intro h
    unfold leadingToken? at h
    split at h
    · next hprefix =>
      cases h
      exact ⟨trivial, List.isPrefixOf_iff_prefix.1 hprefix⟩
    · split at h
      · next hprefix =>
        cases h
        exact ⟨trivial, List.isPrefixOf_iff_prefix.1 hprefix⟩
      · split at h
        · next rest hrest =>
          obtain ⟨role, hrole, rfl⟩ := Option.map_eq_some_iff.1 h
          obtain ⟨hrole, hprefix⟩ := leadingRole?_eq_some.1 hrole
          rw [← List.isPrefixOf?_eq_some_iff_append_eq.1 hrest]
          rw [toList_load, List.prefix_append_right_inj]
          exact ⟨hrole, hprefix⟩
        · cases h
  · -- The spellings of two tokens differ at their third character.
    rintro ⟨htoken, rest, rfl⟩
    cases token with
    | literal => cases htoken
    | functionName => rfl
    | metaBuffer => rfl
    | load role =>
      have hrole : leadingRole? (role.toList ++ loadClosing.toList ++ rest) = some role :=
        leadingRole?_eq_some.2 ⟨htoken, List.prefix_append _ _⟩
      have hopening : loadOpening.toList.isPrefixOf?
          (loadOpening.toList ++ (role.toList ++ loadClosing.toList ++ rest)) =
            some (role.toList ++ loadClosing.toList ++ rest) :=
        List.isPrefixOf?_eq_some_iff_append_eq.2 rfl
      have hfunction : functionNameToken.toList.isPrefixOf
          (loadOpening.toList ++ (role.toList ++ loadClosing.toList ++ rest)) = false := rfl
      have hmeta : metaBufferToken.toList.isPrefixOf
          (loadOpening.toList ++ (role.toList ++ loadClosing.toList ++ rest)) = false := rfl
      rw [toList_load, List.append_assoc]
      simp [leadingToken?, hfunction, hmeta, hopening, hrole, -List.append_assoc]

end Segment

end TensorLowering
