import TensorLowering.Layout.Basic
import TensorLowering.Symbol.Table
import TensorLowering.Template.Basic

/-!
# Filling in roles

A `RoleBinder` knows what each role of a template stands for: the region of a tensor, or a number.
Filling a template replaces every load by an expression (`RoleBinder.fill`). What is known becomes
a literal; what depends on an unbound symbol gets a slot of the metadata buffer, which is read when
the kernel runs. A role is turned into an expression once, at its first use, and keeps it.
-/

namespace TensorLowering

/-- The metadata parameter that every kernel receives. -/
def metadataPointer : String := "meta_buffer"

/-- What a role stands for. -/
inductive RoleValue where
  /-- A pointer to the region of a tensor. -/
  | region (allocation : Allocation)
  /-- An extent, a stride or another number. -/
  | scalar (extent : Extent)
  deriving DecidableEq, Repr

/-- A role in use, with the expression put in its place and the tensor behind it, if there is
one. -/
structure Binding where
  role : String
  tensor : Option String
  space : Option Space
  expression : String
  deriving DecidableEq, Repr

/-- A number that is computed once symbols are bound and written to the metadata buffer. -/
structure MetadataSlot where
  slot : Nat
  role : String
  extent : Extent
  rendered : String
  deriving DecidableEq, Repr

/-- The roles registered so far, and those in use with the metadata they need. -/
structure RoleBinder where
  symbols : SymbolTable
  registered : List (String × RoleValue)
  bindings : List Binding
  slots : List MetadataSlot
  deriving DecidableEq, Repr

/-- A step of filling in: it may fail, and keeps what it recorded up to there. -/
abbrev Filling (α : Type) := ExceptT LoweringError (StateM RoleBinder) α

/-- The list with a key set: in its old place if it is there, at the end otherwise. -/
def setKey (key : String) (value : RoleValue) :
    List (String × RoleValue) → List (String × RoleValue)
  | [] => [(key, value)]
  | (k, v) :: rest => if k = key then (k, value) :: rest else (k, v) :: setKey key value rest

namespace RoleBinder

/-- The binder without roles. -/
def empty (symbols : SymbolTable) : RoleBinder := ⟨symbols, [], [], []⟩

/-- Registers a role, in place of what it stood for before. -/
def register (b : RoleBinder) (role : String) (value : RoleValue) : RoleBinder :=
  { b with registered := setKey role value b.registered }

/-- The binder with the given roles, registered in sequence. -/
def ofRoles (symbols : SymbolTable) (roles : List (String × RoleValue)) : RoleBinder :=
  roles.foldl (fun b (role, value) => b.register role value) (empty symbols)

/-- Whether a role is registered. -/
def isRegistered (b : RoleBinder) (role : String) : Bool := b.registered.any (·.1 == role)

/-- The binder with one more metadata slot. -/
def addSlot (b : RoleBinder) (role : String) (extent : Extent) : RoleBinder :=
  { b with slots := b.slots ++ [⟨b.slots.length, role, extent, b.symbols.render extent⟩] }

/-- The binder with one more role in use. -/
def addBinding (b : RoleBinder) (binding : Binding) : RoleBinder :=
  { b with bindings := b.bindings ++ [binding] }

/-- The expression of the metadata slot with an index. -/
def slotExpression (slot : Nat) : String := metadataPointer ++ "[" ++ toString slot ++ "]"

/-- The expression of an extent: its value, or a new metadata slot. -/
def extentExpression (role : String) (extent : Extent) : Filling String := do
  let b : RoleBinder ← get
  match ← b.symbols.evaluate extent with
  | some n => pure (toString n.toInt)
  | none =>
    set (b.addSlot role extent)
    pure (slotExpression b.slots.length)

/-- The binding of a role to its value. -/
def bindingOf (role : String) : RoleValue → Filling Binding
  | .region a => do
    let offset ← extentExpression role a.offset
    pure ⟨role, some a.name, some a.space,
      "((float *)(" ++ a.space.pointer ++ " + " ++ offset ++ "))"⟩
  | .scalar extent => do
    let expression ← extentExpression role extent
    pure ⟨role, none, none, expression⟩

/-- The expression of a role, bound at its first use. -/
def expression (role : String) : Filling String := do
  let b : RoleBinder ← get
  match b.bindings.find? (·.role == role) with
  | some binding => pure binding.expression
  | none =>
    match b.registered.lookup role with
    | none => throw (.unknownRole role [])
    | some value =>
      let binding ← bindingOf role value
      modify (addBinding · binding)
      pure binding.expression

/-- The segment with loads and the metadata buffer filled in. -/
def fillSegment : Segment → Filling Segment
  | .load role => do
    let text ← expression role
    pure (.literal text)
  | .metaBuffer => pure (.literal metadataPointer)
  | other => pure other

/-- Fills a template. A role that is not registered is reported before anything is recorded. -/
def fillTemplate (t : Template) : Filling Template := do
  let b : RoleBinder ← get
  match t.roles.find? (!b.isRegistered ·) with
  | some role => throw (.unknownRole role (b.registered.map Prod.fst))
  | none =>
    let segments ← t.segments.mapM fillSegment
    pure (.ofSegments segments)

/-- Fills a template: the binder afterwards, also after a failure, and the filled template. -/
def fill (b : RoleBinder) (t : Template) : RoleBinder × Lowering Template :=
  let (result, after) := (fillTemplate t).run b
  (after, result)

end RoleBinder

end TensorLowering
