/-
# SymbolAtlas.Checked.Stub -- declarations outside the loaded files

Entities of dependencies, of the standard library and of the language itself are
declared in files that are not loaded.  Their declarations get nodes when they are
first asked for, below a node for their file that no visit reaches.
-/
import SymbolAtlas.Checked.Memory
import SymbolAtlas.PackageClause

set_option autoImplicit false

namespace SymbolAtlas.Checked

open Text

/-! ## Predeclared entities -/

/-- The identifiers that declare predeclared entities, by the names of those. -/
def declaredNames : Phrase → List (String × Identifier)
  | .function _ _ name _ _ _ _ _ => [(name.name, name)]
  | .declarations _ _ specs => specs.flatMap fun spec =>
      match spec with
      | .imported _ => []
      | .value _ _ _ names _ => names.map fun i => (i.name, i)
      | .type _ _ name _ type =>
          (name.name, name) :: match type with
            | .interfaceType _ elements => elements.filterMap fun
                | .mk _ _ method _ => method.map fun i => (name.name ++ "." ++ i.name, i)
            | _ => []
  | _ => []

/-- The file that documents the predeclared entities. -/
def Base.predeclaredPath (b : Base) : String :=
  Path.join [b.toolchain, "src", "builtin", "builtin.go"]

/-- The place of a predeclared entity; of several declarations the last counts. -/
def Base.predeclaredPlace? (b : Base) (name : String) : Option Place := do
  let file ← b.facts.predeclared
  let named := file.declarations.flatMap declaredNames
  let (_, i) ← named.reverse.find? (·.1 = name)
  return b.placeAt b.predeclaredPath i.extent.start

/-! ## Nodes -/

/-- The file at a path, which is not loaded. -/
def externalFile (b : Base) (path : String) : Asking ExternalFile := do
  match (← get).externals.get? path with
  | some f => return f
  | none =>
      let node ← addNode { node := { id := default, kind := .file, name := path, file := path } }
      let f : ExternalFile := { source := b.source path, node := node.id }
      modify fun m => { m with externals := m.externals.insert path f }
      return f

/-- A declaration at a place outside the loaded files, under the key of its symbol. -/
def addStub (b : Base) (key : String) (kind : NodeKind) (name : String) (place : Place)
    (entity : Option EntityId) (redeclarable : Bool) (symbol : Asking Symbol) :
    Asking NodeId := do
  let f ← externalFile b place.file
  let span := f.source.nameSpan place.line place.column (Utf8.encode name)
  let nameId : NodeId := ⟨(← get).nodes.size + 1⟩
  let declaration ← addNode {
    node := { id := default, kind, name, file := place.file, span, fullSpan := span
              parent := some f.node, nameNode := some nameId, redeclarable }
    entity }
  let _ ← addNode {
    node := { id := default, kind := .identifier, name, file := place.file, span
              fullSpan := span, parent := some declaration.id }
    symbol := some (← symbol) }
  modify fun m => { m with stubs := m.stubs.insert key declaration.id }
  return declaration.id

/-- Where an entity outside the loaded files is declared. -/
def Base.stubPlace? (b : Base) (e : Entity) : Option Place :=
  (if e.isUniverse then b.predeclaredPlace? (b.facts.universeName e)
    else e.place.map b.resolve).filter (·.file ≠ "")

/-- The declaration of an entity outside the loaded files, whatever it belongs to. -/
def bareStub (b : Base) (id : EntityId) : Asking (Option NodeId) := do
  let key ← keyOf b id
  match (← get).stubs.get? key with
  | some stub => return some stub
  | none =>
      let e := b.facts.entity id
      match b.stubPlace? e with
      | none => return none
      | some place =>
          return some (← addStub b key (e.nodeKind false) e.name place (some id) (e.name = "_")
            (symbolFor b id))

/-- The declaration of an entity in the loaded files. -/
def loadedDeclaration? (b : Base) (id : EntityId) : Asking (Option NodeId) := do
  let e := b.facts.entity id
  if e.isUniverse then return none
  match e.place with
  | none => return none
  | some place =>
      let place := b.resolve place
      return (← get).declarations.get? (place.file, place.offset)

/-- The declaration of a type name. -/
def typeDeclaration? (b : Base) (id : EntityId) : Asking (Option NodeId) := do
  match ← loadedDeclaration? b id with
  | some declaration => return some declaration
  | none => bareStub b id

/-- The declaration of an entity outside the loaded files.  A member belongs to the
declaration of its type. -/
def stub (b : Base) (id : EntityId) : Asking (Option NodeId) := do
  if let some known := (← get).stubs.get? (← keyOf b id) then return some known
  match ← bareStub b id with
  | none => return none
  | some stub =>
      match (b.facts.entity id).nodeKind false with
      | .method | .interfaceMethod | .field =>
          if let some type := b.facts.container? id then
            let owner ← typeDeclaration? b type
            modifyNode stub fun n => { n with owner }
      | _ => pure ()
      return some stub

/-- The declaration of an entity. -/
def declaration? (b : Base) (id : EntityId) : Asking (Option NodeId) := do
  let id := b.facts.origin id
  match ← loadedDeclaration? b id with
  | some declaration => return some declaration
  | none => stub b id

/-! ## Packages -/

/-- A file of a package that is not loaded: the one with its first entity. -/
def Base.packageFile? (b : Base) (package : Package) : Option String :=
  (package.scope.findSome? fun id => (b.facts.entity id).place).map fun place =>
    (b.resolve place).file

/-- The package clauses that declare a package. -/
def packageClauses (b : Base) (id : PackageId) : Asking (List NodeId) := do
  let package := b.facts.package id
  let key := packageKey package.path
  let m ← get
  match m.clauses.get? package.path, m.stubs.get? key with
  | some clauses, _ => return clauses
  | none, some stub => return [stub]
  | none, none =>
      match b.packageFile? package with
      | none => return []
      | some file =>
          match (b.files.readBytes? file).bind PackageClause.read? with
          | none => return []
          | some clause =>
              let place := { b.placeAt file clause.offset with file }
              return [← addStub b key .package clause.name place none false (packageSymbol b id)]

end SymbolAtlas.Checked
