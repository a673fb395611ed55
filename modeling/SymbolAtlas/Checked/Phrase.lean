/-
# SymbolAtlas.Checked.Phrase -- parsed source as far as names depend on it

A phrase keeps of the syntax what decides where a name is declared and what surrounds
it: declarations, signatures, scopes, bodies of types, and everything else as a plain
sequence of its parts.  Each identifier of a file has a mark of its own.
-/
import SymbolAtlas.Checked.Entity

set_option autoImplicit false

namespace SymbolAtlas.Checked

/-- A stretch of a file in bytes. -/
structure Extent where
  start : Nat := 0
  stop : Nat := 0
deriving DecidableEq, Repr, Inhabited

/-- An identifier with what the checker recorded for it. -/
structure Identifier where
  mark : Nat := 0
  name : String := ""
  extent : Extent := {}
  /-- The entity that it declares. -/
  definition : Option EntityId := none
  /-- The entity that it uses. -/
  use : Option EntityId := none
deriving DecidableEq, Repr, Inhabited

/-- The entity that an identifier denotes. -/
def Identifier.entity? (i : Identifier) : Option EntityId := i.definition.or i.use

/-- An import. -/
structure Import where
  extent : Extent := {}
  name : Option Identifier := none
  path : Extent := {}
  /-- The path between its quotes. -/
  literal : String := ""
  /-- The entity of an import without a name. -/
  implicit : Option EntityId := none
deriving DecidableEq, Repr, Inhabited

mutual

/-- A piece of syntax. -/
inductive Phrase where
  | identifier (i : Identifier)
  /-- `operand.name`. -/
  | selector (operand : Phrase) (name : Identifier)
  /-- An operand with a star, in brackets, or with arguments behind it. -/
  | wrapped (operand : Phrase) (arguments : List Phrase)
  /-- Parts that stand side by side. -/
  | sequence (parts : List Phrase)
  /-- Parameters and results. -/
  | signature (extent : Extent) (parts : List Phrase)
  /-- A block, or a statement or clause that opens one; a clause of a type switch may
  declare a variable. -/
  | scope (extent : Extent) (implicit : Option EntityId) (parts : List Phrase)
  /-- A type switch, whose guard is a name with the extent of its assignment. -/
  | typeSwitch (extent : Extent) (init : List Phrase) (guard : Option (Identifier × Extent))
      (subject : List Phrase) (body : Phrase)
  | structType (extent : Extent) (fields : List Field)
  | interfaceType (extent : Extent) (elements : List Element)
  /-- Declarations after one keyword. -/
  | declarations (extent : Extent) (doc : String) (specs : List Spec)
  /-- A function, or a method with the syntax of its receiver. -/
  | function (extent : Extent) (doc : String) (name : Identifier) (isMethod : Bool)
      (typeParameters : List Phrase) (signatureExtent : Extent) (signature : List Phrase)
      (body : List Phrase)

/-- Fields of one type; without names, the field is embedded. -/
inductive Field where
  | mk (extent : Extent) (doc : String) (names : List Identifier) (type : Phrase)

/-- A method of an interface, or an embedded element without a name. -/
inductive Element where
  | mk (extent : Extent) (doc : String) (name : Option Identifier) (type : Phrase)

/-- One of the declarations after a keyword. -/
inductive Spec where
  | imported (i : Import)
  | type (extent : Extent) (doc : String) (name : Identifier) (parameters : List Phrase)
      (type : Phrase)
  /-- Constants or variables, with their type and values. -/
  | value (isConstant : Bool) (extent : Extent) (doc : String) (names : List Identifier)
      (parts : List Phrase)

end

instance : Inhabited Phrase := ⟨.sequence []⟩

/-- A parsed file. -/
structure SourceFile where
  extent : Extent := {}
  doc : String := ""
  name : Identifier := {}
  declarations : List Phrase := []
deriving Inhabited

namespace Phrase

/-- The identifier that names an embedded field. -/
def embeddedName? : Phrase → Option Identifier
  | identifier i => some i
  | selector _ name => some name
  | wrapped operand _ => operand.embeddedName?
  | _ => none

/-- The variable that a clause declares. -/
def implicit? : Phrase → Option EntityId
  | scope _ implicit _ => implicit
  | _ => none

/-- The variables that the clauses of a body declare, with the numbers of the clauses. -/
def clauseVariables : Phrase → List (EntityId × Nat)
  | scope _ _ clauses => clauses.zipIdx.filterMap fun (clause, i) =>
      clause.implicit?.map fun entity => (entity, i)
  | _ => []

end Phrase
end SymbolAtlas.Checked
