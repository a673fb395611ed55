/-
# SymbolAtlas.Lsif.Numbering -- from graph elements to lines

A dump numbers its lines itself.  It also needs vertices that the graph does not
have: one result per symbol for its definitions and one for its references, and
one vertex per package.  They are made when they are first needed.
-/
import SymbolAtlas.Graph
import SymbolAtlas.Lsif.Line
import SymbolAtlas.Table

set_option autoImplicit false

namespace SymbolAtlas.Lsif

open SymbolAtlas.Graph (Id Element Role Property)

/-- The numbers given so far. -/
structure Numbering where
  last : Nat := 0
  ids : Table Id LineId := .empty
  definitionResults : Table Id LineId := .empty
  referenceResults : Table Id LineId := .empty
  packages : Table PackageInfo LineId := .empty

/-- A step that numbers elements and writes lines. -/
abbrev Lining := StateM (Numbering × List Line)

namespace Lining

/-- A number that no line has. -/
def fresh : Lining LineId := fun (n, lines) =>
  (n.last + 1, { n with last := n.last + 1 }, lines)

/-- The number of a graph element, given on its first mention. -/
def idOf (g : Id) : Lining LineId := fun (n, lines) =>
  match n.ids.get? g with
  | some id => (id, n, lines)
  | none => (n.last + 1, { n with last := n.last + 1, ids := n.ids.insert g (n.last + 1) }, lines)

/-- Write a line. -/
def write (l : Line) : Lining Unit := fun (n, lines) => ((), n, lines ++ [l])

/-- Write a vertex under the number of a graph element. -/
def writeVertex (g : Id) (payload : Vertex) : Lining Unit := do
  write (.vertex (← idOf g) payload)

/-- Write an edge between two graph elements. -/
def writeEdge (g : Id) (link : Link) (outV inV : Id) : Lining Unit := do
  let id ← idOf g
  let outV ← idOf outV
  let inV ← idOf inV
  write (.edge id link outV inV)

/-- The result vertex of a result set, made with its request edge on first use. -/
def resultOf (get : Numbering → Table Id LineId)
    (put : Table Id LineId → Numbering → Numbering) (payload : Vertex) (link : Link)
    (resultSet : Id) : Lining LineId := do
  match (get (← MonadState.get).1).get? resultSet with
  | some id => return id
  | none =>
      let id ← fresh
      write (.vertex id payload)
      let edge ← fresh
      let outV ← idOf resultSet
      write (.edge edge link outV id)
      modify fun (n, lines) => (put ((get n).insert resultSet id) n, lines)
      return id

/-- The vertex that collects the references of a result set. -/
def referenceResult : Id → Lining LineId :=
  resultOf (·.referenceResults) (fun t n => { n with referenceResults := t })
    .referenceResult .references

/-- The vertex that collects the definitions of a result set. -/
def definitionResult : Id → Lining LineId :=
  resultOf (·.definitionResults) (fun t n => { n with definitionResults := t })
    .definitionResult .definition

/-- The vertex of a package, made on first use. -/
def packageOf (p : PackageInfo) : Lining LineId := do
  match (← get).1.packages.get? p with
  | some id => return id
  | none =>
      let id ← fresh
      write (.vertex id (.packageInformation p.name p.manager p.version))
      modify fun (n, lines) => ({ n with packages := n.packages.insert p id }, lines)
      return id

/-- The tag of an occurrence. -/
def tagOf (r : Graph.Range) : Option Tag :=
  match r.role with
  | .definition => some (.definition r.text r.kind r.fullSpan)
  | .reference => some (.reference r.text)
  | .other _ => none

/-- An occurrence and the edge to its symbol. -/
def writeRange (g : Id) (r : Graph.Range) : Lining Unit := do
  writeVertex g (.range r.span (tagOf r))
  let edge ← fresh
  let outV ← idOf g
  let inV ← idOf r.resultSet
  write (.edge edge .next outV inV)

/-- A moniker and the edge to its package, if it has one. -/
def writeMoniker (g : Id) (m : Moniker) : Lining Unit := do
  let id ← idOf g
  write (.vertex id (.moniker m.scheme m.identifier m.kind.name))
  unless m.package.name = "" do
    let edge ← fresh
    let package ← packageOf m.package
    write (.edge edge .packageInformation id package)

/-- The occurrences of a symbol in a document.  Definitions are listed twice:
under the definitions and, marked as such, under the references. -/
def writeItem (g : Id) (i : Graph.Item) : Lining Unit := do
  let document ← idOf i.document
  let inVs ← i.inVs.mapM idOf
  let references ← referenceResult i.outV
  match i.property with
  | .definitions =>
      let definitions ← definitionResult i.outV
      write (.item (← idOf g) definitions inVs document "")
      write (.item (← fresh) references inVs document Property.definitions.name)
  | property => write (.item (← idOf g) references inVs document property.name)

/-- The lines of an element; nothing if the format has none for it. -/
def element? (e : Element) : Option (Lining Unit) :=
  match e.body with
  | .metadata m =>
      some (writeVertex e.id (.metaData m.version m.projectRoot m.toolName m.toolVersion))
  | .project p => some (writeVertex e.id (.project p.kind p.name))
  | .document d => some (writeVertex e.id (.document d.uri d.languageId))
  | .resultSet _ => some (writeVertex e.id .resultSet)
  | .range r => some (writeRange e.id r)
  | .moniker m => some (writeMoniker e.id m)
  | .hover contents => some (writeVertex e.id (.hoverResult contents))
  | .contains outV inVs => some do
      let id ← idOf e.id
      let outV ← idOf outV
      let inVs ← inVs.mapM idOf
      write (.contains id outV inVs)
  | .item i => some (writeItem e.id i)
  | .next outV inV => some (writeEdge e.id .next outV inV)
  | .monikerEdge outV inV => some (writeEdge e.id .moniker outV inV)
  | .hoverEdge outV inV => some (writeEdge e.id .hover outV inV)
  | .foreign .. => none

end Lining
end SymbolAtlas.Lsif
