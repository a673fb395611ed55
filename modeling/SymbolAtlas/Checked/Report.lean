/-
# SymbolAtlas.Checked.Report -- the report of a type checker

A checker reports in JSON.  Packages and entities are listed and mentioned by their
places in the lists; a piece of syntax has the name of its form, its extent, and its
parts with the names of the fields that hold them.  What is missing is false, empty or
absent.
-/
import SymbolAtlas.Checked.Facts
import SymbolAtlas.Json.Basic
import SymbolAtlas.Text.Blank

set_option autoImplicit false

namespace SymbolAtlas.Checked.Report

open Text

/-- A mention of an entity or a package. -/
def mention (key : String) (j : Json) : Option Nat := (j.member key).int?.map Int.toNat

/-- Mentions in a list. -/
def mentions (key : String) (j : Json) : List Nat :=
  (j.items key).filterMap fun item => item.int?.map Int.toNat

/-! ## Entities -/

/-- The place of an entity. -/
def placeOf : Json → Option Place
  | .arr [.str file, line, column, offset] =>
      let number (j : Json) : Nat := (j.int?.getD 0).toNat
      some { file, line := number line, column := number column, offset := number offset }
  | _ => none

/-- A type of which it is reported which declared type it leads to. -/
def typeOf (named : Option Nat) : TypeTerm := (named.map .named).getD .other

/-- The type of a type name.  Of an alias it is reported what it stands for; if that is no name,
there is a pointer before the declared type. -/
def namedTypeOf (isAlias : Bool) (target named : Option Nat) : TypeTerm :=
  match isAlias, target, named with
  | false, _, named => typeOf named
  | true, some target, some _ => .aliasOf (.named target)
  | true, some target, none => .aliasOf (.basic target)
  | true, none, named => .aliasOf (.pointer (typeOf named))

/-- What a named type is made of. -/
def shapeOf (j : Json) : Shape :=
  match j.member "struct", j.member "interface" with
  | .arr fields, _ => .struct (fields.map fun f =>
      ((mention "field" f).getD 0, (mention "embedded" f).map .named))
  | _, .obj members =>
      let i := Json.obj members
      .interface (mentions "methods" i) ((mentions "embeds" i).map .named)
  | _, _ => .other

/-- What an entity is. -/
def kindOf (j : Json) : EntityKind :=
  match j.text "k" with
  | "pkgname" => .packageName ((mention "imported" j).getD 0)
  | "const" => .constant
  | "typename" => .typeName {
      isAlias := j.flag "alias", isParameter := j.flag "type_param"
      type := namedTypeOf (j.flag "alias") (mention "target" j) (mention "named" j)
      methods := mentions "methods" j, shape := shapeOf j }
  | "func" => .function (mention "origin" j) (match j.member "recv" with
      | .obj members =>
          let r := Json.obj members
          some { type := typeOf (mention "named" r), isInterface := r.flag "interface" }
      | _ => none)
  | "var" => .variable (mention "origin" j) (j.flag "is_field")
  | "label" => .label
  | "builtin" => .builtin
  | "nil" => .nil
  | _ => .other

/-- An entity. -/
def entityOf (j : Json) : Entity :=
  { kind := kindOf j, name := j.text "n", package := mention "pkg" j
    place := placeOf (j.member "pos"), isExported := j.flag "exported", isTop := j.flag "top"
    description := j.text "string" }

/-- A package. -/
def packageOf (j : Json) : Package :=
  { path := j.text "path", name := j.text "name", scope := mentions "scope" j }

/-! ## Phrases -/

/-- Gives each identifier of a file the next mark. -/
abbrev Marking := StateM Nat

/-- The parts of a piece of syntax with the names of their fields. -/
def parts (j : Json) : List (String × Json) :=
  (j.items "c").filterMap fun
    | .arr [.str field, part] => some (field, part)
    | _ => none

/-- The parts in a field. -/
def partsAt (field : String) (j : Json) : List Json :=
  (parts j).filterMap fun (name, part) => if name = field then some part else none

/-- The first part in a field. -/
def partAt (field : String) (j : Json) : Json := (partsAt field j).head?.getD .null

/-- Where a piece of syntax stands. -/
def extentOf (j : Json) : Extent := ⟨(j.number "s").toNat, (j.number "e").toNat⟩

/-- The comment before a piece of syntax. -/
def docOf (j : Json) : String := Blank.trim (j.text "doc")

/-- An identifier. -/
def identifierOf (j : Json) : Marking Identifier := do
  let mark ← get
  set (mark + 1)
  return { mark, name := j.text "n", extent := extentOf j, definition := mention "def" j
           use := mention "use" j }

/-- The identifiers in a field. -/
def identifiersAt (field : String) (j : Json) : Marking (List Identifier) :=
  (partsAt field j).mapM identifierOf

/-- The first identifier in a field. -/
def identifierAt (field : String) (j : Json) : Marking Identifier := identifierOf (partAt field j)

/-- An import. -/
def importOf (j : Json) : Marking Import := do
  let path := partAt "Path" j
  return { extent := extentOf j, name := (← identifiersAt "Name" j).head?, path := extentOf path
           literal := path.text "v", implicit := mention "implicit" j }

/-- The name that a type switch gives to its subject. -/
def guardName? (assign : Json) : Option Json :=
  match assign.text "k", partsAt "Lhs" assign with
  | "AssignStmt", [name] => if name.text "k" = "Ident" then some name else none
  | _, _ => none

/-- Forms that open a scope. -/
def scopeForms : List String :=
  ["BlockStmt", "IfStmt", "ForStmt", "RangeStmt", "SwitchStmt", "SelectStmt", "CaseClause",
    "CommClause"]

/-- Forms that only wrap their first part. -/
def wrapperForms : List String := ["StarExpr", "IndexExpr", "IndexListExpr", "ParenExpr"]

/-- A phrase, with the readers of its parts. -/
def phraseWith (read : Json → Marking Phrase) (j : Json) : Marking Phrase := do
  let extent := extentOf j
  let form := j.text "k"
  let all (js : List Json) : Marking (List Phrase) := js.mapM read
  let children : Marking (List Phrase) := all ((parts j).map (·.2))
  let field (f : Json) : Marking Field := do
    return .mk (extentOf f) (docOf f) (← identifiersAt "Names" f) (← read (partAt "Type" f))
  let element (f : Json) : Marking Element := do
    return .mk (extentOf f) (docOf f) (← identifiersAt "Names" f).head? (← read (partAt "Type" f))
  let spec (s : Json) : Marking Spec := do
    match s.text "k" with
    | "ImportSpec" => return .imported (← importOf s)
    | "TypeSpec" =>
        return .type (extentOf s) (docOf s) (← identifierAt "Name" s)
          (← all (partsAt "TypeParams" s)) (← read (partAt "Type" s))
    | _ =>
        return .value (j.text "tok" = "const") (extentOf s) (docOf s) (← identifiersAt "Names" s)
          (← all (partsAt "Type" s ++ partsAt "Values" s))
  if form = "Ident" then return .identifier (← identifierOf j)
  else if form = "SelectorExpr" then
    return .selector (← read (partAt "X" j)) (← identifierAt "Sel" j)
  else if wrapperForms.contains form then
    return .wrapped (← read (partAt "X" j)) (← all ((parts j).tail.map (·.2)))
  else if form = "FuncType" then return .signature extent (← children)
  else if scopeForms.contains form then return .scope extent (mention "implicit" j) (← children)
  else if form = "TypeSwitchStmt" then
    let init ← all (partsAt "Init" j)
    let assign := partAt "Assign" j
    match guardName? assign with
    | some name =>
        return .typeSwitch extent init (some (← identifierOf name, extentOf assign))
          (← all (partsAt "Rhs" assign)) (← read (partAt "Body" j))
    | none =>
        return .typeSwitch extent init none (← all (partsAt "Assign" j)) (← read (partAt "Body" j))
  else if form = "StructType" then
    return .structType extent (← (partsAt "List" (partAt "Fields" j)).mapM field)
  else if form = "InterfaceType" then
    return .interfaceType extent (← (partsAt "List" (partAt "Methods" j)).mapM element)
  else if form = "GenDecl" then
    return .declarations extent (docOf j) (← (partsAt "Specs" j).mapM spec)
  else if form = "FuncDecl" then
    let type := partAt "Type" j
    let receiver := partsAt "Recv" j
    return .function extent (docOf j) (← identifierAt "Name" j) (!receiver.isEmpty)
      (← all (partsAt "TypeParams" type)) (extentOf type)
      (← all (receiver ++ partsAt "Params" type ++ partsAt "Results" type))
      (← all (partsAt "Body" j))
  else return .sequence (← children)

/-- A phrase of a report that is nested at most `depth` deep. -/
def phraseWithin : Nat → Json → Marking Phrase
  | 0, _ => return .sequence []
  | depth + 1, j => phraseWith (phraseWithin depth) j

/-- A parsed file. -/
def fileOf (j : Json) : SourceFile :=
  let read : Marking SourceFile := do
    return { extent := extentOf j, doc := docOf j, name := ← identifierAt "Name" j
             declarations := ← (partsAt "Decls" j).mapM (phraseWithin j.depth) }
  (read 0).1

/-! ## Facts -/

/-- A loaded package. -/
def loadedOf (j : Json) : LoadedPackage :=
  { id := j.text "id", path := j.text "pkg_path", errors := (j.number "errors").toNat
    package := mention "pkg" j
    files := (j.items "files").map fun f => (f.text "path", fileOf (f.member "ast")) }

/-- The facts of a report. -/
def factsOf (j : Json) : Facts :=
  { loaded := (j.items "packages").map loadedOf
    packages := ((j.items "pkgs").map packageOf).toArray
    entities := ((j.items "objects").map entityOf).toArray
    predeclared := match j.member "builtin" with
      | .null => none
      | file => some (fileOf file) }

end SymbolAtlas.Checked.Report
