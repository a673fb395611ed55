/-
# SymbolAtlas.Session.State -- what an indexing session remembers

A session holds one node per symbol key and one per file path, both in the order
in which they were first met.  Nodes refer to each other by key and by path.  A
node is open until it is ended; after that nothing may be added to it.

A step of a session is a transition on `State` that may stop at a broken
invariant (`Broken`).  What it did before it stopped stays done.
-/
import SymbolAtlas.Graph
import SymbolAtlas.Naming
import SymbolAtlas.Variant
import SymbolAtlas.Text.Path

set_option autoImplicit false

namespace SymbolAtlas.Session

open Text (Span)
open SymbolAtlas.Graph (Id Element Sink)

/-- What is to be indexed, and how it is reported. -/
structure Options where
  projectName : String := ""
  root : String := ""
  runId : String := ""
  scheme : String := ""
  languageId : String := ""
  hover : Bool := false
  toolName : String := ""
  toolVersion : String := ""
deriving Inhabited

/-- Options with the usual scheme and language where none is given. -/
def Options.filled (o : Options) : Options :=
  { o with
    scheme := if o.scheme = "" then defaultScheme else o.scheme
    languageId := if o.languageId = "" then "go" else o.languageId }

/-- Counters of a run. -/
structure Stats where
  documents : Nat := 0
  symbols : Nat := 0
  definitions : Nat := 0
  references : Nat := 0
  monikers : Nat := 0
  exportAliases : Nat := 0
  skipped : Nat := 0
deriving DecidableEq, Repr, Inhabited

/-- A place in a file where a name stands. -/
structure Site where
  file : String
  span : Span
deriving DecidableEq, Repr, Inhabited

/-- The place of a node. -/
def Site.ofNode (n : Node) : Site := ⟨n.file, n.span⟩

/-- The occurrences of a symbol in one document. -/
structure Occurrences where
  document : Id
  definitions : Array Id := #[]
  references : Array Id := #[]
deriving Inhabited

/-- The node of one symbol. -/
structure SymbolNode where
  symbol : Symbol
  variant : Option Variant := none
  resultSet : Id := 0
  identifier : String := ""
  isLocal : Bool := false
  monikers : Array Moniker := #[]
  /-- The declarations chosen for the variant. -/
  declarations : List NodeId := []
  /-- The declaration whose name stands at a site. -/
  sites : Table Site NodeId := .empty
  /-- The sites at which a definition was recorded. -/
  recorded : List Site := []
  /-- The keys of the members that this one builds on. -/
  bases : List String := []
  /-- The keys of the members that a composite stands for. -/
  members : List String := []
  /-- The occurrences by path of the document. -/
  occurrences : Table String Occurrences := .empty
  ended : Bool := false
deriving Inhabited

/-- The node of one file. -/
structure DocumentNode where
  id : Id
  location : Option Location := none
  external : Bool := false
  defaultLibrary : Bool := false
  ranges : Array Id := #[]
  /-- The keys of the symbols that end with the document. -/
  locals : List String := []
  ended : Bool := false
deriving Inhabited

/-- The package path of a document, empty if it has none. -/
def DocumentNode.monikerPath (d : DocumentNode) : String := (d.location.map (·.path)).getD ""

/-- What does not change during a session. -/
structure Context (μ ω : Type) where
  oracle : Oracle μ
  sink : Sink ω
  options : Options
  locate : Locator

/-- What changes during a session. -/
structure State (μ ω : Type) where
  memory : μ
  output : ω
  namer : Namer
  lastId : Nat := 0
  symbols : Table String SymbolNode := .empty
  documents : Table String DocumentNode := .empty
  /-- The paths of the files that the run visits. -/
  traversal : List String := []
  /-- Local symbols whose document does not exist yet, by path. -/
  pendingLocals : Table String (List String) := .empty
  /-- The path of the document that is being visited. -/
  current : Option String := none
  projectId : Id := 0
  stats : Stats := {}
  /-- The reason of the first refused element; nothing is emitted after it. -/
  failure : Option String := none
  ran : Bool := false

/-- What may be added to an open symbol. -/
inductive Addition where
  | definition
  | reference
  | moniker
deriving DecidableEq, Repr

/-- The name of an addition. -/
def Addition.name : Addition → String
  | .definition => "definition"
  | .reference => "reference"
  | .moniker => "moniker"

/-- A broken invariant of a session. -/
inductive Broken where
  | symbolEnded (addition : Addition) (key : String)
  | symbolEndedTwice (key : String)
  | documentEnded (path : String)
  | documentEndedTwice (path : String)
  | outsideDocument
  | noDeclaration
  | bottomless (key : String)
  /-- The containers around the declarations of a symbol seem to have no end. -/
  | endless (key : String)
deriving DecidableEq, Repr

/-- A broken invariant in words. -/
def Broken.message : Broken → String
  | symbolEnded addition key => "index: " ++ addition.name ++ " on ended symbol " ++ key
  | symbolEndedTwice key => "index: symbol " ++ key ++ " ended twice"
  | documentEnded path => "index: range appended to ended document " ++ path
  | documentEndedTwice path => "index: document " ++ path ++ " ended twice"
  | outsideDocument => "index: export alias linked outside a document"
  | noDeclaration => "runtime error: invalid memory address or nil pointer dereference"
  | bottomless key => "index: symbol " ++ key ++ " is reached through too many others"
  | endless key => "index: symbol " ++ key ++ " is declared in too many containers"

/-- A step of a session. -/
abbrev Indexing (μ ω : Type) := ExceptT Broken (StateM (State μ ω))

variable {μ ω : Type}

/-- A session that has not run. -/
def State.start (c : Context μ ω) (memory : μ) (output : ω) : State μ ω :=
  { memory, output, namer := .start c.options.scheme c.locate }

/-- Ask the oracle. -/
def ask {α : Type} (question : StateM μ α) : Indexing μ ω α := do
  let s ← get
  let (answer, memory) := question s.memory
  set { s with memory }
  return answer

/-- The node with an identity. -/
def nodeOf (c : Context μ ω) (id : NodeId) : Indexing μ ω Node := do
  return c.oracle.node id (← get).memory

/-- Change the counters. -/
def count (f : Stats → Stats) : Indexing μ ω Unit :=
  modify fun s => { s with stats := f s.stats }

/-- Give a new element the next ID and hand it to the sink.  After a refusal IDs
are still given, but nothing is handed on. -/
def emit (c : Context μ ω) (body : Graph.Body) : Indexing μ ω Id := do
  let s ← get
  let id := s.lastId + 1
  let s := { s with lastId := id }
  match s.failure with
  | some _ => set s
  | none =>
      match c.sink ⟨id, body⟩ s.output with
      | .ok output => set { s with output }
      | .error reason => set { s with failure := some reason }
  return id

/-- The path of a file as the project shows it: below the root it is relative. -/
def displayPath (root path : String) : String :=
  if root = "" then path else (Text.Path.within? root path).getD path

end SymbolAtlas.Session
