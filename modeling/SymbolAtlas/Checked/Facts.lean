/-
# SymbolAtlas.Checked.Facts -- the findings of a type checker

The checker reports packages with their parsed files, and the entities that names
denote.  On top of that stand the relations between entities: the type that a member
belongs to, and the named types that a type is built on, nearest first.
-/
import SymbolAtlas.Checked.Phrase

set_option autoImplicit false

namespace SymbolAtlas.Checked

/-- A package as it was loaded. -/
structure LoadedPackage where
  /-- Names the variant: a package with its tests has brackets in it. -/
  id : String := ""
  path : String := ""
  /-- The number of errors in it. -/
  errors : Nat := 0
  /-- Nothing if it was not checked. -/
  package : Option PackageId := none
  files : List (String × SourceFile) := []
deriving Inhabited

/-- A comment that says where the text behind it comes from. -/
structure LineDirective where
  /-- Where the text begins that it speaks of. -/
  offset : Nat
  file : String
  line : Nat
  /-- Zero if it says nothing about columns. -/
  column : Nat := 0
deriving DecidableEq, Repr, Inhabited

/-- Everything that the checker found. -/
structure Facts where
  loaded : List LoadedPackage := []
  packages : Array Package := #[]
  entities : Array Entity := #[]
  /-- The directives of files that have some, in the order of their offsets. -/
  directives : List (String × List LineDirective) := []
  /-- The file that documents the predeclared entities. -/
  predeclared : Option SourceFile := none
deriving Inhabited

namespace Facts

/-- The entity with a number. -/
def entity (f : Facts) (id : EntityId) : Entity := f.entities[id]?.getD {}

/-- The package with a number. -/
def package (f : Facts) (id : PackageId) : Package := f.packages[id]?.getD {}

/-- The directive that counts at an offset of a file. -/
def directiveAt? (f : Facts) (path : String) (offset : Nat) : Option LineDirective :=
  ((f.directives.lookup path).getD []).reverse.find? (·.offset ≤ offset)

/-- The declared entity of an instantiated one. -/
def origin (f : Facts) (id : EntityId) : EntityId := (f.entity id).origin?.getD id

/-- What is known about a type name; nothing about other entities. -/
def type? (f : Facts) (id : EntityId) : Option TypeInfo := (f.entity id).type?

/-! ## Members -/

/-- Whether a type name declares a struct type with that field. -/
def declaresField (f : Facts) (field type : EntityId) : Bool :=
  match f.type? type with
  | some { isAlias := false, shape := .struct fields, .. } => fields.any (·.1 = field)
  | _ => false

/-- The type at the top of its package that declares a field; of two types with one
body, the one with the last name. -/
def fieldOwner? (f : Facts) (field : EntityId) : Option EntityId :=
  (f.entity field).package.bind fun package =>
    (f.package package).scope.reverse.find? (f.declaresField (f.origin field))

/-- The type name that a method or a field belongs to. -/
def container? (f : Facts) (id : EntityId) : Option EntityId :=
  match (f.entity id).kind with
  | .function _ receiver => receiver.bind (·.named?)
  | .variable _ true => f.fieldOwner? id
  | _ => none

/-- The name of a predeclared entity, behind that of its type if it is a method. -/
def universeName (f : Facts) (e : Entity) : String :=
  match e.receiver?.bind (·.named?) with
  | some type => (f.entity type).name ++ "." ++ e.name
  | none => e.name

/-! ## Embedding -/

/-- The named types that a named type embeds, behind aliases and pointers too. -/
def embeds (f : Facts) (type : EntityId) : List EntityId :=
  match (f.type? type).map TypeInfo.shape with
  | some (.struct fields) => fields.filterMap fun field => field.2.bind TypeTerm.named?
  | some (.interface _ embeds) => embeds.filterMap TypeTerm.named?
  | _ => []

/-- The types that are reached from those in `queue`, nearest first.  `fresh` are the
types that were not reached yet. -/
def reached (f : Facts) (fresh queue : List EntityId) : List EntityId :=
  match queue with
  | [] => []
  | type :: rest =>
      if _h : type ∈ fresh then
        type :: f.reached (fresh.erase type) (rest ++ f.embeds type)
      else f.reached fresh rest
termination_by (fresh.length, queue.length)
decreasing_by
  · have := List.length_erase_of_mem _h
    have := List.length_pos_of_mem _h
    exact Prod.Lex.left _ _ (by omega)
  · exact Prod.Lex.right _ (by simp)

/-- The named types that a type is built on, nearest first, without itself. -/
def bases (f : Facts) (type : EntityId) : List EntityId :=
  f.reached ((List.range f.entities.size).erase type) (f.embeds type)

/-- The members that a named type declares itself, methods first. -/
def members (f : Facts) (type : EntityId) : List EntityId :=
  match f.type? type with
  | none => []
  | some info =>
      info.methods ++ match info.shape with
        | .struct fields => fields.map (·.1)
        | .interface methods _ => methods
        | .other => []

/-- The member of that name which a named type declares itself. -/
def memberNamed? (f : Facts) (name : String) (type : EntityId) : Option EntityId :=
  (f.members type).find? fun id => (f.entity id).name = name

/-- The members of that name in the types that the type of a type name is built on. -/
def baseMembers (f : Facts) (typeName : EntityId) (name : String) : List EntityId :=
  match (f.type? typeName).bind (·.named?) with
  | none => []
  | some type => (f.bases type).filterMap (f.memberNamed? name)

end Facts
end SymbolAtlas.Checked
