import TensorLowering.Template.Basic

/-!
# Reading templates

`Template.parse` takes tokens from the left: wherever a token begins that is well formed it is
taken, and every other character is literal text. A sequence of percent signs that begins no token
stays literal, so rendering a parsed text gives the text back.
-/

namespace TensorLowering

namespace Segment

/-- Whether a character may stand in the role of a load; ASCII letters, digits and underscores
may. -/
def isRoleChar (ch : Char) : Bool := ch.isAlphanum || ch == '_'

/-- The role at the front of a text, if it is nonempty and a load closes right after it. -/
def leadingRole? (chars : List Char) : Option String :=
  let role := chars.takeWhile isRoleChar
  let rest := chars.dropWhile isRoleChar
  if !role.isEmpty && loadClosing.toList.isPrefixOf rest then some (String.ofList role) else none

/-- The token at the front of a text, if there is one. -/
def leadingToken? (chars : List Char) : Option Segment :=
  if functionNameToken.toList.isPrefixOf chars then some functionName
  else if metaBufferToken.toList.isPrefixOf chars then some metaBuffer
  else
    match loadOpening.toList.isPrefixOf? chars with
    | some rest => (leadingRole? rest).map load
    | none => none

end Segment

namespace Template

/-- The segments of a text, with every literal character on its own. The first `skip` characters
belong to a token that was already taken. -/
def scan : Nat → List Char → List Segment
  | _, [] => []
  | skip + 1, _ :: chars => scan skip chars
  | 0, ch :: chars =>
    match Segment.leadingToken? (ch :: chars) with
    | some token => token :: scan (token.text.length - 1) chars
    | none => .literal (String.singleton ch) :: scan 0 chars

/-- The template that a text spells. -/
def parse (text : String) : Template := ofSegments (scan 0 text.toList)

end Template

end TensorLowering
