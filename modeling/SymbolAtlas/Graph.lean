/-
# SymbolAtlas.Graph -- the elements of a cross-reference graph

An indexing run emits vertices and edges one after the other.  Each has an ID;
an edge mentions the IDs of what it joins.
-/
import SymbolAtlas.Moniker
import SymbolAtlas.Text.Span

set_option autoImplicit false

namespace SymbolAtlas.Graph

open Text (Span)

/-- The number of an element within one run. -/
abbrev Id := Int

/-- Opens a run. -/
structure Metadata where
  version : String := ""
  projectRoot : String := ""
  toolName : String := ""
  toolVersion : String := ""
deriving DecidableEq, Repr, Inhabited

/-- The root vertex of a run. -/
structure Project where
  name : String := ""
  root : String := ""
  kind : String := ""
  runId : String := ""
deriving DecidableEq, Repr, Inhabited

/-- A source file. -/
structure Document where
  uri : String := ""
  path : String := ""
  languageId : String := ""
  external : Bool := false
  monikerPath : String := ""
  defaultLibrary : Bool := false
deriving DecidableEq, Repr, Inhabited

/-- The vertex of one symbol. -/
structure ResultSet where
  symbol : String := ""
  name : String := ""
  variant : String := ""
  isLocal : Bool := false
deriving DecidableEq, Repr, Inhabited

/-- What an occurrence does with its symbol. -/
inductive Role where
  | definition
  | reference
  | other (text : String)
deriving DecidableEq, Repr, Inhabited

namespace Role

/-- The name of a role. -/
def name : Role → String
  | definition => "definition"
  | reference => "reference"
  | other text => text

/-- The role with a name. -/
def ofName (text : String) : Role :=
  if text = "definition" then definition
  else if text = "reference" then reference
  else other text

end Role

/-- Which occurrences an item edge lists. -/
inductive Property where
  | definitions
  | references
  | other (text : String)
deriving DecidableEq, Repr, Inhabited

namespace Property

/-- The name of a property. -/
def name : Property → String
  | definitions => "definitions"
  | references => "references"
  | other text => text

/-- The property with a name. -/
def ofName (text : String) : Property :=
  if text = "definitions" then definitions
  else if text = "references" then references
  else other text

end Property

/-- One occurrence of a symbol in a document.  Kind and full span are those of a
definition. -/
structure Range where
  document : Id := 0
  resultSet : Id := 0
  span : Span := {}
  role : Role := .reference
  text : String := ""
  kind : String := ""
  fullSpan : Span := {}
deriving DecidableEq, Repr, Inhabited

/-- Joins a symbol to its occurrences in one document. -/
structure Item where
  outV : Id := 0
  inVs : List Id := []
  document : Id := 0
  property : Property := .references
deriving DecidableEq, Repr, Inhabited

/-- What an element is. -/
inductive Body where
  | metadata (m : Metadata)
  | project (p : Project)
  | document (d : Document)
  | resultSet (s : ResultSet)
  | range (r : Range)
  | moniker (m : Moniker)
  | hover (contents : String)
  /-- Joins a project to its documents or a document to its ranges. -/
  | contains (outV : Id) (inVs : List Id)
  | item (i : Item)
  /-- Joins the result set of an alias to that of its target. -/
  | next (outV inV : Id)
  | monikerEdge (outV inV : Id)
  | hoverEdge (outV inV : Id)
  /-- An element that no writer knows; `typeName` is what it calls itself. -/
  | foreign (typeName label : String)
deriving DecidableEq, Repr, Inhabited

/-- A numbered vertex or edge. -/
structure Element where
  id : Id
  body : Body
deriving DecidableEq, Repr, Inhabited

/-- The label of an element. -/
def Body.label : Body → String
  | metadata _ => "metaData"
  | project _ => "project"
  | document _ => "document"
  | resultSet _ => "resultSet"
  | range _ => "range"
  | moniker _ => "moniker"
  | hover _ => "hoverResult"
  | contains _ _ => "contains"
  | item _ => "item"
  | next _ _ => "next"
  | monikerEdge _ _ => "moniker"
  | hoverEdge _ _ => "textDocument/hover"
  | foreign _ label => label

/-- Takes elements in the order of their emission, or refuses one with a reason. -/
abbrev Sink (ω : Type) := Element → ω → Except String ω

/-- Keeps every element. -/
def Sink.collect : Sink (Array Element) := fun e kept => .ok (kept.push e)

/-- Hands on `limit` elements and refuses every further one with `reason`. -/
def Sink.upTo {ω : Type} (limit : Nat) (reason : String) (sink : Sink ω) : Sink (Nat × ω) :=
  fun e (taken, state) =>
    if taken < limit then (sink e state).map fun state => (taken + 1, state) else .error reason

/-- Hands every element to both, in this order; the second does not see what the
first refuses. -/
def Sink.both {ω ψ : Type} (first : Sink ω) (second : Sink ψ) : Sink (ω × ψ) :=
  fun e (a, b) => do
    let a ← first e a
    let b ← second e b
    return (a, b)

end SymbolAtlas.Graph
