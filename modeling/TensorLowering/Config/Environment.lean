import TensorLowering.Config.Basic
import TensorLowering.Text.Blank

/-!
# Settings from the environment

Settings may be given as texts, one per setting, each optional. A flag is set by `1` or by `true`
in any case and cleared by any other text. An alignment is an unsigned decimal word with blank
margins and at most one leading plus sign; a text that is none, or no power of two, is ignored.
-/

namespace TensorLowering

/-- The number that a nonempty sequence of ASCII digits writes. -/
def decimal? (digits : List Char) : Option Nat :=
  if digits.isEmpty || !digits.all Char.isDigit then none
  else some (digits.foldl (fun n d => n * 10 + (d.toNat - '0'.toNat)) 0)

/-- The sequence without one leading plus sign. -/
def dropPlus : List Char → List Char
  | '+' :: rest => rest
  | chars => chars

/-- The unsigned word that a text writes. -/
def unsignedWord? (chars : List Char) : Option UInt64 :=
  match decimal? (dropPlus chars) with
  | some n => if n < UInt64.size then some (UInt64.ofNat n) else none
  | none => none

namespace Config

/-- The value of a flag. -/
def flag (text : Option String) (standard : Bool) : Bool :=
  match text with
  | none => standard
  | some s => s.toList == ['1'] || s.toList.map Char.toLower == "true".toList

/-- The value of the alignment setting. -/
def alignmentOf (text : Option String) (standard : UInt64) : UInt64 :=
  match text.bind fun s => unsignedWord? (trimBlank s.toList) with
  | some n => if isPowerOfTwo n then n else standard
  | none => standard

/-- The settings that the three texts give. -/
def ofTexts (alignment strict verifyLayout : Option String) : Config :=
  ⟨alignmentOf alignment standard.alignment, flag strict standard.strict,
    flag verifyLayout standard.verifyLayout⟩

end Config

end TensorLowering
