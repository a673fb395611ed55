/-
# SymbolAtlas.Sketch -- small programs drawn by hand

A sketch is built step by step: files, containers, declarations, identifiers and
symbols, and then what holds between them.  Every node gets the next line of its
file, so no two nodes share a span.  `Sketch.oracle` answers the indexer's
questions from a finished sketch and remembers which aliases it was asked to
resolve.
-/
import SymbolAtlas.Oracle
import SymbolAtlas.Table

set_option autoImplicit false

namespace SymbolAtlas

open Text (Span Position)

/-- A node of a sketch with the nodes below it. -/
structure SketchNode where
  node : Node
  children : List NodeId := []
  /-- A container other than the parent. -/
  owner : Option NodeId := none
deriving Inhabited

/-- What is known about a symbol of a sketch. -/
structure SketchSymbol where
  symbol : Symbol
  declarations : List NodeId := []
  target : Option Nat := none
  members : Option (List Nat) := none
  container : Option Nat := none
  exportPath : Option (List String) := none
  hover : Hover := {}
  hoverError : Option String := none
deriving Inhabited

/-- A program drawn by hand. -/
structure Sketch where
  nodes : Array SketchNode := #[]
  symbols : Array SketchSymbol := #[]
  files : List NodeId := []
  /-- The next free line of each file. -/
  lines : Table String Nat := .empty
  bindings : Table NodeId Nat := .empty
  bases : Table (String × String) (List Nat) := .empty
  exportAliases : Table NodeId String := .empty
  externalFiles : List String := []
  defaultLibraries : List String := []
deriving Inhabited

namespace Sketch

/-- The node with an identity. -/
def node (s : Sketch) (id : NodeId) : Node := (s.nodes[id.index]?.map (·.node)).getD { id }

/-- The symbol with a handle. -/
def symbol (s : Sketch) (handle : Nat) : SketchSymbol := s.symbols[handle]?.getD default

/-- Change a node. -/
def modifyNode (s : Sketch) (id : NodeId) (f : SketchNode → SketchNode) : Sketch :=
  { s with nodes := s.nodes.modify id.index f }

/-- Change a symbol. -/
def modifySymbol (s : Sketch) (handle : Nat) (f : SketchSymbol → SketchSymbol) : Sketch :=
  { s with symbols := s.symbols.modify handle f }

/-- Add a node on the next line of its file. -/
def addNode (s : Sketch) (parent : Option NodeId) (file : String) (kind : NodeKind)
    (name : String) : NodeId × Sketch :=
  let id : NodeId := ⟨s.nodes.size⟩
  let line := (s.lines.get? file).getD 0
  let width := name.utf8ByteSize
  let span (width : Nat) : Span := ⟨⟨line, 0⟩, ⟨line, width⟩⟩
  let node : Node :=
    { id, kind, name, file, parent, span := span width, fullSpan := span (width + 1) }
  let s := { s with
    nodes := s.nodes.push { node }
    lines := s.lines.insert file (line + 1) }
  match parent with
  | none => (id, s)
  | some p => (id, s.modifyNode p fun n => { n with children := n.children ++ [id] })

/-- Add a file that is to be indexed. -/
def addFile (s : Sketch) (path : String) : NodeId × Sketch :=
  let (id, s) := s.addNode none path .file path
  (id, { s with files := s.files ++ [id] })

/-- Add a file of a library, which is not indexed. -/
def addLibrary (s : Sketch) (path : String) : NodeId × Sketch :=
  { s with externalFiles := path :: s.externalFiles }.addNode none path .file path

/-- Add a node below `parent`, in its file. -/
def addChild (s : Sketch) (parent : NodeId) (kind : NodeKind) (name : String) :
    NodeId × Sketch :=
  s.addNode (some parent) (s.node parent).file kind name

/-- Add a declaration and the identifier that names it.  The declaration's span
is that of its name. -/
def declare (s : Sketch) (parent : NodeId) (kind : NodeKind) (name : String) :
    NodeId × Sketch :=
  let (id, s) := s.addChild parent kind name
  let (nameId, s) := s.addChild id .identifier name
  let span := (s.node nameId).span
  (id, s.modifyNode id fun n =>
    { n with node := { n.node with nameNode := some nameId, span } })

/-- Add a symbol that nothing denotes yet. -/
def addSymbol (s : Sketch) (key name : String) (flags : SymbolFlags) : Nat × Sketch :=
  let handle := s.symbols.size
  (handle, { s with symbols := s.symbols.push { symbol := { handle, key, name, flags } } })

/-- Let a node denote a symbol. -/
def bind (s : Sketch) (id : NodeId) (handle : Nat) : Sketch :=
  { s with bindings := s.bindings.insert id handle }

/-- Record declarations of a symbol. -/
def addDeclarations (s : Sketch) (handle : Nat) (nodes : List NodeId) : Sketch :=
  s.modifySymbol handle fun e => { e with declarations := e.declarations ++ nodes }

/-- Declare a name, let it denote a symbol and record the declaration. -/
def define (s : Sketch) (parent : NodeId) (kind : NodeKind) (name : String) (handle : Nat) :
    NodeId × Sketch :=
  let (id, s) := s.declare parent kind name
  let s := match (s.node id).nameNode with
    | some nameId => s.bind nameId handle
    | none => s
  (id, s.addDeclarations handle [id])

/-- Add a use of a symbol under its own name. -/
def addUse (s : Sketch) (parent : NodeId) (handle : Nat) : NodeId × Sketch :=
  let (id, s) := s.addChild parent .identifier (s.symbol handle).symbol.name
  (id, s.bind id handle)

/-- Change the flags of a symbol. -/
def modifyFlags (s : Sketch) (handle : Nat) (f : SymbolFlags → SymbolFlags) : Sketch :=
  s.modifySymbol handle fun e => { e with symbol := { e.symbol with flags := f e.symbol.flags } }

/-- Make a symbol an alias, of `target` if one is given. -/
def setAlias (s : Sketch) (handle : Nat) (target : Option Nat) : Sketch :=
  let s := s.modifyFlags handle fun f => { f with aliasing := true }
  match target with
  | none => s
  | some _ => s.modifySymbol handle fun e => { e with target }

/-- Make a symbol transient, and a composite if members are given. -/
def setComposite (s : Sketch) (handle : Nat) (members : Option (List Nat)) : Sketch :=
  (s.modifyFlags handle fun f => { f with transient := true }).modifySymbol handle
    fun e => { e with members }

/-- Make a symbol a member of a container. -/
def setContainer (s : Sketch) (handle container : Nat) : Sketch :=
  (s.modifyFlags handle fun f => { f with member := true }).modifySymbol handle
    fun e => { e with container := some container }

/-- The members of that name which a container is built on. -/
def setBases (s : Sketch) (container : Nat) (name : String) (bases : List Nat) : Sketch :=
  { s with bases := s.bases.insert ((s.symbol container).symbol.key, name) bases }

/-- The exported names that lead to a symbol. -/
def setExportPath (s : Sketch) (handle : Nat) (segments : List String) : Sketch :=
  s.modifySymbol handle fun e => { e with exportPath := some segments }

/-- Let a declaration publish its alias target under a name. -/
def setExportAlias (s : Sketch) (id : NodeId) (name : String) : Sketch :=
  { s with exportAliases := s.exportAliases.insert id name }

/-! ## The finished sketch as an oracle -/

/-- The tree below a node.  Children are younger than their parent, so the number
of nodes bounds the depth. -/
def treeWith (s : Sketch) : Nat → NodeId → Tree
  | 0, id => .node (s.node id) []
  | depth + 1, id =>
      .node (s.node id) (((s.nodes[id.index]?.map (·.children)).getD []).map (s.treeWith depth))

/-- The tree below a node. -/
def tree (s : Sketch) (id : NodeId) : Tree := s.treeWith s.nodes.size id

/-- The symbol that a node denotes. -/
def symbolAt (s : Sketch) (id : NodeId) : Option SketchSymbol :=
  (s.bindings.get? id).map s.symbol

/-- The container that qualifies a node. -/
def ownerOf (s : Sketch) (id : NodeId) : Option NodeId :=
  match s.nodes[id.index]? with
  | none => none
  | some n => n.owner.or n.node.parent

/-- The hover of a name. -/
def hoverOf (s : Sketch) (id : NodeId) : Except String Hover :=
  match s.symbolAt id with
  | none => .error ("no symbol at " ++ (s.node id).span.render)
  | some e =>
      match e.hoverError with
      | some message => .error message
      | none => .ok e.hover

/-- The keys of the aliases an oracle was asked to resolve, last first. -/
abbrev AliasLog := List String

/-- The finished sketch; its memory is the log of resolved aliases. -/
def oracle (s : Sketch) : Oracle AliasLog where
  files := s.files.map s.tree
  size := s.nodes.size + s.symbols.size + 1
  node id _ := s.node id
  owner id := pure (s.ownerOf id)
  symbolAt id := pure ((s.symbolAt id).map (·.symbol))
  declarationsOf sym := pure (s.symbol sym.handle).declarations
  resolveAlias sym := fun log =>
    (((s.symbol sym.handle).target).map fun t => (s.symbol t).symbol, sym.key :: log)
  compositeMembers sym _ :=
    pure ((s.symbol sym.handle).members.map (·.map fun m => (s.symbol m).symbol))
  containerOf sym := pure ((s.symbol sym.handle).container.map fun c => (s.symbol c).symbol)
  baseMembers container name :=
    pure (((s.bases.get? (container.key, name)).getD []).map fun b => (s.symbol b).symbol)
  exportPath sym := pure (s.symbol sym.handle).exportPath
  exportAlias id := pure (s.exportAliases.get? id)
  isExternalFile path := s.externalFiles.contains path
  isDefaultLibrary path := s.defaultLibraries.contains path
  hoverText id := pure (s.hoverOf id)

end Sketch
end SymbolAtlas
