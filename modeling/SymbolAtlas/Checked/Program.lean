/-
# SymbolAtlas.Checked.Program -- a checked module as an oracle

`Program.load` selects the files of a module from what the checker found: each file once,
from the variant of its package that has the tests if there is one, by package and
path.  `Program.oracle` answers the indexer's questions.
-/
import SymbolAtlas.Checked.Outline
import SymbolAtlas.Checked.Stub

set_option autoImplicit false

namespace SymbolAtlas.Checked

open Text

/-- Why a module cannot be loaded. -/
inductive LoadError where
  /-- The toolchain failed, in its own words. -/
  | toolchain (report : String)
  | noPackages (root : String)
deriving DecidableEq, Repr

/-- The error in words. -/
def LoadError.message : LoadError → String
  | toolchain report => "load packages: " ++ report
  | noPackages root => "gotypes: no packages found under " ++ root

/-- A loaded module. -/
structure Program where
  base : Base := {}
  files : List Tree := []
  /-- The memory before the first question. -/
  memory : Memory := {}
  /-- The number of errors that the checker reported. -/
  packageErrors : Nat := 0
deriving Inhabited

/-! ## Selection -/

/-- Whether a package was loaded together with its tests. -/
def LoadedPackage.isTestVariant (p : LoadedPackage) : Bool := p.id.toList.contains '['

/-- Whether a package is the program that runs tests. -/
def LoadedPackage.isTestProgram (p : LoadedPackage) : Bool := Path.endsWith p.id ".test"

/-- The order of packages: by path, those with their tests first. -/
def LoadedPackage.isBefore (a b : LoadedPackage) : Bool :=
  a.path < b.path || (a.path = b.path && (a.isTestVariant || !b.isTestVariant))

/-- The files of a package. -/
def Base.filesOf (b : Base) (p : LoadedPackage) : List LoadedFile :=
  match p.package with
  | none => []
  | some package =>
      if p.isTestProgram then []
      else p.files.map fun (path, parsed) =>
        { path, packagePath := p.path, package, parsed, source := b.source path }

/-- Add a file unless its path was added before. -/
def addFresh (files : List LoadedFile) (f : LoadedFile) : List LoadedFile :=
  if files.any (·.path = f.path) then files else files ++ [f]

/-- The order of files: by package, then by path. -/
def LoadedFile.isBefore (a b : LoadedFile) : Bool :=
  a.packagePath < b.packagePath || (a.packagePath = b.packagePath && a.path ≤ b.path)

/-- The files to index. -/
def Base.select (b : Base) (keeps : String → Bool) : List LoadedFile :=
  let candidates := (b.facts.loaded.mergeSort LoadedPackage.isBefore).flatMap b.filesOf
  let wanted := candidates.filter fun f => Path.isWithin b.root f.path && keeps f.path
  (wanted.foldl addFresh []).mergeSort LoadedFile.isBefore

namespace Program

/-- Load the files that `keeps` lets through. -/
def load (b : Base) (keeps : String → Bool) : Except LoadError Program :=
  match b.select keeps with
  | [] => .error (.noPackages b.root)
  | selected =>
      let (files, memory) := (selected.mapM (outlineFile b)) {}
      .ok { base := b, files, memory, packageErrors := b.facts.loaded.foldl (· + ·.errors) 0 }

/-- The paths of the loaded files. -/
def paths (p : Program) : List String := p.files.map (·.root.file)

/-! ## Questions -/

/-- Whether a file lies outside the module or among its vendored dependencies. -/
def isExternal (b : Base) (path : String) : Bool :=
  !Path.isWithin b.root path || Path.isWithin (Path.join [b.root, "vendor"]) path

/-- Whether a file belongs to the standard library. -/
def isDefaultLibrary (b : Base) (path : String) : Bool :=
  b.toolchain ≠ "" && Path.isWithin (Path.join [b.toolchain, "src"]) path

/-- A method belongs to the declaration of its receiver's type, everything else to
what surrounds it. -/
def owner (b : Base) (id : NodeId) : Asking (Option NodeId) := do
  let n := (← get).node id
  if n.owner.isSome then return n.owner
  match n.receiver with
  | none => return n.node.parent
  | some type => return (← declaration? b type).or n.node.parent

/-- The symbol that a node denotes. -/
def symbolAt (b : Base) (id : NodeId) : Asking (Option Symbol) := do
  let n := (← get).node id
  if n.symbol.isSome then return n.symbol
  (n.identifier.bind (·.entity?)).mapM (symbolFor b)

/-- The declarations of a symbol. -/
def declarationsOf (b : Base) (s : Symbol) : Asking (List NodeId) := do
  match ← meaningOf s with
  | none => return []
  | some (.package id) => packageClauses b id
  | some (.guard declaration _) => return [declaration]
  | some (.entity id) => return (← declaration? b id).toList

/-- The package of an import, the type of an alias. -/
def resolveAlias (b : Base) (s : Symbol) : Asking (Option Symbol) := do
  match ← meaningOf s with
  | some (.entity id) =>
      match (b.facts.entity id).kind with
      | .packageName imported => return some (← packageSymbol b imported)
      | .typeName info =>
          if info.isAlias then info.type.target?.mapM (symbolFor b) else return none
      | _ => return none
  | _ => return none

/-- The variables that the guard of a type switch stands for. -/
def compositeMembers (b : Base) (s : Symbol) : Asking (Option (List Symbol)) := do
  match ← meaningOf s with
  | some (.guard _ members) => return some (← members.mapM (symbolFor b))
  | _ => return none

/-- The type that a method or field belongs to. -/
def containerOf (b : Base) (s : Symbol) : Asking (Option Symbol) := do
  match ← meaningOf s with
  | some (.entity id) => (b.facts.container? id).mapM (symbolFor b)
  | _ => return none

/-- The members of that name in the types that a type is built on. -/
def baseMembers (b : Base) (container : Symbol) (name : String) : Asking (List Symbol) := do
  match ← meaningOf container with
  | some (.entity id) => (b.facts.baseMembers id name).mapM (symbolFor b)
  | _ => return []

/-- The exported names that lead to an entity. -/
def entityExportPath (f : Facts) (id : EntityId) : Option (List String) :=
  let e := f.entity id
  let container := f.container? id
  if e.isUniverse then
    some (((container.map fun type => (f.entity type).name).toList) ++ [e.name])
  else if !e.isExported then none
  else
    match container with
    | some type =>
        let t := f.entity type
        if t.isExported && t.isTop then some [t.name, e.name] else none
    | none => if e.isTop then some [e.name] else none

/-- The exported names that lead to a symbol; a package needs none. -/
def exportPath (b : Base) (s : Symbol) : Asking (Option (List String)) := do
  match ← meaningOf s with
  | some (.entity id) => return entityExportPath b.facts id
  | some (.package _) => return some []
  | _ => return none

/-- An exported alias at the top of a package publishes its target under its own
name. -/
def exportAlias (b : Base) (id : NodeId) : Asking (Option String) := do
  let n := (← get).node id
  if n.node.kind ≠ .typeDecl then return none
  return n.entity.bind fun id =>
    let e := b.facts.entity id
    match e.type? with
    | some info =>
        if info.isAlias && e.isExported && !e.isUniverse && e.isTop then some e.name else none
    | none => none

/-- The declaration in words and its comment. -/
def hoverText (b : Base) (id : NodeId) : Asking (Except String Hover) := do
  match ← symbolAt b id with
  | none =>
      let n := ((← get).node id).node
      return .error ("gotypes: no symbol at " ++ n.file ++ ":" ++ n.span.render)
  | some s =>
      let signature := match ← meaningOf s with
        | some (.entity id) => (b.facts.entity id).description
        | some (.package id) =>
            let package := b.facts.package id
            "package " ++ package.name ++ " (" ++ Quoted.quote package.path ++ ")"
        | _ => "var " ++ s.name
      let m ← get
      let doc := ((m.node id).node.parent.map m.node).filter (·.node.nameNode = some id)
      return .ok { signature, doc := (doc.map (·.doc)).getD "" }

/-- The module as an oracle.  Every entity and every package has one symbol and at most
one stub of two nodes in one file. -/
def oracle (p : Program) : Oracle Memory :=
  let b := p.base
  { files := p.files
    size := p.memory.nodes.size + 4 * (b.facts.entities.size + b.facts.packages.size)
    node := fun id m => (m.node id).node
    owner := owner b
    symbolAt := symbolAt b
    declarationsOf := declarationsOf b
    resolveAlias := resolveAlias b
    compositeMembers := fun s _ => compositeMembers b s
    containerOf := containerOf b
    baseMembers := baseMembers b
    exportPath := exportPath b
    exportAlias := exportAlias b
    isExternalFile := isExternal b
    isDefaultLibrary := isDefaultLibrary b
    hoverText := hoverText b }

end Program
end SymbolAtlas.Checked
