/-
# SymbolAtlas.Checked.Memory -- what a checked program remembers

Symbols are made when they are first asked for, and known by their keys ever after: a
key stands for the entity that first came with it.  Nodes are made for the loaded
files, and later for declarations elsewhere.
-/
import SymbolAtlas.Checked.Facts
import SymbolAtlas.FileTree
import SymbolAtlas.Table
import SymbolAtlas.Text.Source

set_option autoImplicit false

namespace SymbolAtlas.Checked

open Text

/-- What does not change in a checked program. -/
structure Base where
  facts : Facts := {}
  /-- The directory of the module. -/
  root : String := ""
  /-- The directory of the toolchain with its standard library. -/
  toolchain : String := ""
  files : FileTree := {}
deriving Inhabited

/-- What a symbol stands for. -/
inductive Meaning where
  | entity (id : EntityId)
  | package (id : PackageId)
  /-- The guard of a type switch with the variables of its clauses. -/
  | guard (declaration : NodeId) (members : List EntityId)
deriving DecidableEq, Repr, Inhabited

/-- A symbol that was asked for. -/
structure KnownSymbol where
  symbol : Symbol
  meaning : Meaning
deriving Inhabited

/-- A node with what the checker knows about it. -/
structure CheckedNode where
  node : Node
  /-- The identifier of a name that stands in the source. -/
  identifier : Option Identifier := none
  /-- The symbol of a name for which the checker recorded none. -/
  symbol : Option Symbol := none
  /-- The entity that a declaration introduces. -/
  entity : Option EntityId := none
  /-- The type name of a method's receiver. -/
  receiver : Option EntityId := none
  /-- The declaration that a declaration outside the loaded files belongs to. -/
  owner : Option NodeId := none
  doc : String := ""
deriving Inhabited

/-- A file that was not loaded, with its node. -/
structure ExternalFile where
  source : Source
  node : NodeId

/-- What changes when questions are asked. -/
structure Memory where
  nodes : Array CheckedNode := #[]
  symbols : Table String KnownSymbol := .empty
  /-- Declarations of the loaded files by reported file and offset of the name. -/
  declarations : Table (String × Nat) NodeId := .empty
  /-- Declarations outside the loaded files by the key of their symbol. -/
  stubs : Table String NodeId := .empty
  /-- The package clauses of the loaded files by package path. -/
  clauses : Table String (List NodeId) := .empty
  /-- The clause of each variable that a type switch declares. -/
  cases : Table EntityId Nat := .empty
  externals : Table String ExternalFile := .empty
deriving Inhabited

/-- A question to a checked program. -/
abbrev Asking := StateM Memory

/-! ## Places -/

/-- The word that stands for the toolchain's directory in reported places. -/
def toolchainMark : String := "$GOROOT"

/-- A place with the toolchain's directory filled in. -/
def Base.resolve (b : Base) (p : Place) : Place :=
  if b.toolchain ≠ "" ∧ Path.startsWith p.file toolchainMark then
    { p with file := Path.join [b.toolchain, Path.trimLead p.file toolchainMark] }
  else p

/-- The place of an entity; one without a place stands nowhere, on line zero. -/
def Base.placeOf (b : Base) (e : Entity) : Place := b.resolve (e.place.getD {})

/-- The source at a path. -/
def Base.source (b : Base) (path : String) : Source :=
  ((b.files.readBytes? path).map Source.ofBytes).getD .unreadable

/-- The file that an offset of a file is reported to stand in. -/
def Base.fileAt (b : Base) (path : String) (offset : Nat) : String :=
  ((b.facts.directiveAt? path offset).map (·.file)).getD path

/-- The place that an offset of a file is reported at: its own, unless a directive says that it
comes from elsewhere. -/
def Base.placeAt (b : Base) (path : String) (offset : Nat) : Place :=
  let (line, column) := (b.source path).lineColumn offset
  let (line, column) := match b.facts.directiveAt? path offset with
    | none => (line, column)
    | some d =>
        let passed := line - ((b.source path).lineColumn d.offset).1
        (d.line + passed,
          if d.column = 0 then 0
          else if passed = 0 then d.column + (offset - d.offset)
          else column)
  { file := b.fileAt path offset, line, column, offset }

/-! ## Keys -/

/-- A place as keys mention it. -/
def Place.render (p : Place) : String :=
  p.file ++ ":" ++ toString p.line ++ ":" ++ toString p.column

/-- The key of a package. -/
def packageKey (path : String) : String := "package|" ++ path

/-- The key of the guard of a type switch. -/
def guardKey (package name : String) (place : Place) : String :=
  "guard|" ++ package ++ "|" ++ name ++ "|" ++ place.render

/-- The key of an entity; `clause` is the clause that declares it. -/
def Base.entityKey (b : Base) (e : Entity) (clause : Option Nat) : String :=
  match e.package with
  | none => "universe|" ++ b.facts.universeName e
  | some package =>
      e.tag ++ "|" ++ (b.facts.package package).path ++ "|" ++ e.name ++ "|" ++
        (b.placeOf e).render ++ (clause.map fun i => "#case" ++ toString i).getD ""

/-! ## Symbols -/

/-- The symbol with a key, made if there is none. -/
def remember (key name : String) (flags : SymbolFlags) (meaning : Meaning) : Asking Symbol := do
  let m ← get
  match m.symbols.get? key with
  | some known => return known.symbol
  | none =>
      let symbol : Symbol := { handle := m.symbols.size, key, name, flags }
      set { m with symbols := m.symbols.insert key { symbol, meaning } }
      return symbol

/-- The key of an entity at this time. -/
def keyOf (b : Base) (id : EntityId) : Asking String := do
  return b.entityKey (b.facts.entity id) ((← get).cases.get? id)

/-- The symbol of an entity; an instantiated one has that of its origin. -/
def symbolFor (b : Base) (id : EntityId) : Asking Symbol := do
  let id := b.facts.origin id
  let e := b.facts.entity id
  remember (← keyOf b id) e.name (e.flags ((← get).cases.contains id)) (.entity id)

/-- The symbol of a package. -/
def packageSymbol (b : Base) (id : PackageId) : Asking Symbol :=
  let package := b.facts.package id
  remember (packageKey package.path) package.name { module := true } (.package id)

/-- The symbol of the guard of a type switch, which is always a new one. -/
def guardSymbol (b : Base) (package : PackageId) (name : String) (place : Place)
    (declaration : NodeId) (members : List EntityId) : Asking Symbol := do
  let m ← get
  let key := guardKey (b.facts.package package).path name place
  let symbol : Symbol := { handle := m.symbols.size, key, name, flags := { transient := true } }
  set { m with symbols := m.symbols.insert key { symbol, meaning := .guard declaration members } }
  return symbol

/-- What a symbol stands for. -/
def meaningOf (s : Symbol) : Asking (Option Meaning) := do
  return ((← get).symbols.get? s.key).map (·.meaning)

/-! ## Nodes -/

/-- The node with an identity. -/
def Memory.node (m : Memory) (id : NodeId) : CheckedNode :=
  m.nodes[id.index]?.getD { node := { id } }

/-- Add a node; its identity is chosen here. -/
def addNode (n : CheckedNode) : Asking Node := do
  let m ← get
  let node := { n.node with id := ⟨m.nodes.size⟩ }
  set { m with nodes := m.nodes.push { n with node } }
  return node

/-- Change a node. -/
def modifyNode (id : NodeId) (f : CheckedNode → CheckedNode) : Asking Unit :=
  modify fun m => { m with nodes := m.nodes.modify id.index f }

/-- Record where a declaration's name is reported to stand; the first declaration there counts. -/
def registerDeclaration (b : Base) (path : String) (offset : Nat) (id : NodeId) : Asking Unit :=
  let place := b.resolve (b.placeAt path offset)
  modify fun m => { m with declarations := m.declarations.insertIfNew (place.file, offset) id }

end SymbolAtlas.Checked
