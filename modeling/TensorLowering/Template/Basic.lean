/-!
# Kernel templates

A `Template` is kernel source cut into literal text and tokens: the function name, the metadata
buffer, and loads of named roles. `Template.ofSegments` keeps a template in normal form, without
empty literals and without two literals side by side; `Template.render` writes every token back the
way a template text spells it.
-/

namespace TensorLowering

/-- One piece of a template. -/
inductive Segment where
  | literal (text : String)
  /-- The name of the kernel's entry point. -/
  | functionName
  /-- The name of the metadata buffer. -/
  | metaBuffer
  /-- The expression that a role stands for. -/
  | load (role : String)
  deriving DecidableEq, Repr

namespace Segment

/-- The spelling of the function name token. -/
def functionNameToken : String := "%%FUNC_NAME%%"

/-- The spelling of the metadata buffer token. -/
def metaBufferToken : String := "%%META_BUFFER%%"

/-- What stands before the role of a load. -/
def loadOpening : String := "%%LOAD_BUFFER("

/-- What stands after the role of a load. -/
def loadClosing : String := ")%%"

/-- The segment as a template text spells it. -/
def text : Segment → String
  | literal text => text
  | functionName => functionNameToken
  | metaBuffer => metaBufferToken
  | load role => loadOpening ++ role ++ loadClosing

/-- Whether the segment is literal text. -/
def isLiteral : Segment → Bool
  | literal _ => true
  | _ => false

/-- The role of a load. -/
def role? : Segment → Option String
  | load role => some role
  | _ => none

end Segment

/-- A sequence of literal text and tokens. -/
structure Template where
  segments : List Segment
  deriving DecidableEq, Repr

namespace Template

/-- Puts a segment in front: an empty literal vanishes, and a literal joins a literal after it. -/
def joined : Segment → List Segment → List Segment
  | .literal text, .literal next :: rest => .literal (text ++ next) :: rest
  | .literal text, rest => if text = "" then rest else .literal text :: rest
  | segment, rest => segment :: rest

/-- The template of a list of segments, in normal form. -/
def ofSegments (segments : List Segment) : Template := ⟨segments.foldr joined []⟩

/-- Whether nothing is left to substitute. -/
def isResolved (t : Template) : Bool := t.segments.all Segment.isLiteral

/-- The roles that are loaded, each once, by first reference. -/
def roles (t : Template) : List String := (t.segments.filterMap Segment.role?).eraseDups

/-- The text of a template. -/
def render (t : Template) : String := String.join (t.segments.map Segment.text)

/-- The template with every segment replaced. -/
def map (t : Template) (f : Segment → Segment) : Template := ofSegments (t.segments.map f)

end Template

end TensorLowering
