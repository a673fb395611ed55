/-
# SymbolAtlas.Checked.Entity -- what names of a checked program denote

A type checker gives every declared thing, and every predeclared one, an entity.
Entities and packages are known by their numbers; a package that is checked twice, once
with its tests, has two numbers and one path.
-/
import SymbolAtlas.Oracle

set_option autoImplicit false

namespace SymbolAtlas.Checked

/-- The number of an entity. -/
abbrev EntityId := Nat

/-- The number of a package. -/
abbrev PackageId := Nat

/-- A place in a file: line and column count from one, the offset from zero, in bytes. -/
structure Place where
  file : String := ""
  line : Nat := 0
  column : Nat := 0
  offset : Nat := 0
deriving DecidableEq, Repr, Inhabited

/-- A type, as far as it leads to names. -/
inductive TypeTerm where
  /-- A declared type, by its type name. -/
  | named (name : EntityId)
  /-- An instance of a generic type, by the type name of that. -/
  | applied (generic : EntityId)
  /-- A predeclared type or a type parameter. -/
  | basic (name : EntityId)
  | aliasOf (target : TypeTerm)
  | pointer (element : TypeTerm)
  | other
deriving DecidableEq, Repr, Inhabited

namespace TypeTerm

/-- The type that aliases stand for. -/
def unalias : TypeTerm → TypeTerm
  | .aliasOf target => target.unalias
  | t => t

/-- The type name of a declared type or of an instance of it. -/
def declared? : TypeTerm → Option EntityId
  | .named name | .applied name => some name
  | _ => none

/-- The type name of the declared type behind aliases and at most one pointer. -/
def named? (t : TypeTerm) : Option EntityId :=
  match t.unalias with
  | .pointer element => element.unalias.declared?
  | t => t.declared?

/-- The type name that an alias of this type leads to. -/
def target? (t : TypeTerm) : Option EntityId :=
  match t.unalias with
  | .basic name => some name
  | t => t.declared?

end TypeTerm

/-- What a named type is made of. -/
inductive Shape where
  /-- Fields, each with its type if it is embedded. -/
  | struct (fields : List (EntityId × Option TypeTerm))
  /-- Explicit methods, and the types that are embedded. -/
  | interface (methods : List EntityId) (embeds : List TypeTerm)
  | other
deriving DecidableEq, Repr, Inhabited

/-- What is known about a type name. -/
structure TypeInfo where
  isAlias : Bool := false
  /-- The type that the name stands for. -/
  type : TypeTerm := .other
  isParameter : Bool := false
  methods : List EntityId := []
  shape : Shape := .other
deriving DecidableEq, Repr, Inhabited

/-- The receiver of a method. -/
structure Receiver where
  type : TypeTerm := .other
  isInterface : Bool := false
deriving DecidableEq, Repr, Inhabited

/-- The type name that declares the type of a type name. -/
def TypeInfo.named? (info : TypeInfo) : Option EntityId := info.type.named?

/-- The type name of the receiver's type. -/
def Receiver.named? (receiver : Receiver) : Option EntityId := receiver.type.named?

/-- What an entity is.  `origin` is the declared entity of an instantiated one. -/
inductive EntityKind where
  | packageName (imported : PackageId)
  | constant
  | typeName (info : TypeInfo)
  | function (origin : Option EntityId) (receiver : Option Receiver)
  | variable (origin : Option EntityId) (isField : Bool)
  | label
  | builtin
  | nil
  | other
deriving DecidableEq, Repr, Inhabited

/-- Something that a name denotes. -/
structure Entity where
  kind : EntityKind := .other
  name : String := ""
  /-- Predeclared entities have no package. -/
  package : Option PackageId := none
  place : Option Place := none
  isExported : Bool := false
  /-- Whether the entity is declared at the top of its package. -/
  isTop : Bool := false
  /-- The declaration in words. -/
  description : String := ""
deriving DecidableEq, Repr, Inhabited

namespace Entity

/-- Whether an entity is predeclared. -/
def isUniverse (e : Entity) : Bool := e.package.isNone

/-- The declared entity of an instantiated one. -/
def origin? (e : Entity) : Option EntityId :=
  match e.kind with
  | .function origin _ | .variable origin _ => origin
  | _ => none

/-- The receiver of a method. -/
def receiver? (e : Entity) : Option Receiver :=
  match e.kind with
  | .function _ receiver => receiver
  | _ => none

/-- Whether an entity is a field. -/
def isField (e : Entity) : Bool :=
  match e.kind with
  | .variable _ isField => isField
  | _ => false

/-- What is known about a type name. -/
def type? (e : Entity) : Option TypeInfo :=
  match e.kind with
  | .typeName info => some info
  | _ => none

/-- The word for an entity in symbol keys. -/
def tag (e : Entity) : String :=
  match e.kind with
  | .packageName _ => "pkgname"
  | .constant => "const"
  | .typeName _ => "type"
  | .function _ (some _) => "method"
  | .function _ none => "func"
  | .variable _ true => "field"
  | .variable _ false => "var"
  | .label => "label"
  | .builtin => "builtin"
  | .nil => "nil"
  | .other => "object"

/-- The kind of an entity's declaration, where the syntax around it says nothing more
than whether it is a signature. -/
def nodeKind (e : Entity) (inSignature : Bool) : NodeKind :=
  match e.kind with
  | .packageName _ => .importSpec
  | .constant => .constant
  | .typeName info => if info.isParameter then .typeParameter else .typeDecl
  | .function _ (some receiver) => if receiver.isInterface then .interfaceMethod else .method
  | .function _ none => .function
  | .label => .label
  | .variable _ true => .field
  | .variable _ false => if inSignature then .parameter else .variable
  | .builtin | .nil | .other => .other

/-- The flags of an entity's symbol; `inClause` holds for the variable that a clause of
a type switch declares. -/
def flags (e : Entity) (inClause : Bool) : SymbolFlags :=
  match e.kind with
  | .packageName _ => { aliasing := true, module := true }
  | .typeName info => { aliasing := info.isAlias, typeOnly := true }
  | .function _ receiver => { member := receiver.isSome }
  | .variable _ true => { member := true }
  | .variable _ false => { transient := inClause }
  | _ => {}

end Entity

/-- A package. -/
structure Package where
  path : String := ""
  name : String := ""
  /-- The entities at its top, by name. -/
  scope : List EntityId := []
deriving DecidableEq, Repr, Inhabited

end SymbolAtlas.Checked
