/-
# SymbolAtlas.Session.Documents -- the documents of a session

A document begins when its path is first needed, collects the ranges of its
occurrences, and ends once: its confined symbols first, then the edge that lists
its ranges.
-/
import SymbolAtlas.Session.State

set_option autoImplicit false

namespace SymbolAtlas.Session

open SymbolAtlas.Graph (Id)

variable {μ ω : Type}

/-- Begin a document that does not exist yet.  Symbols that wait for it become
its own. -/
def beginDocument (c : Context μ ω) (path : String) : Indexing μ ω DocumentNode := do
  let location := c.locate path
  let has (f : Location → Bool) : Bool := (location.map f).getD false
  let defaultLibrary := c.oracle.isDefaultLibrary path || has (·.defaultLibrary)
  let external := defaultLibrary || c.oracle.isExternalFile path || has (·.external)
  let id ← emit c (.document {
    uri := "file://" ++ path
    path := displayPath c.options.root path
    languageId := c.options.languageId
    external
    monikerPath := (location.map (·.path)).getD ""
    defaultLibrary })
  let s ← get
  let d : DocumentNode :=
    { id, location, external, defaultLibrary, locals := (s.pendingLocals.get? path).getD [] }
  set { s with
    documents := s.documents.insert path d
    pendingLocals := s.pendingLocals.erase path }
  count fun n => { n with documents := n.documents + 1 }
  return d

/-- The document of a path, begun if need be. -/
def document (c : Context μ ω) (path : String) : Indexing μ ω DocumentNode := do
  match (← get).documents.get? path with
  | some d => return d
  | none => beginDocument c path

/-- Add an occurrence to a document. -/
def addRange (c : Context μ ω) (path : String) (range : Graph.Range) : Indexing μ ω Id := do
  let d ← document c path
  if d.ended then throw (.documentEnded path)
  let id ← emit c (.range { range with document := d.id })
  modify fun s => { s with
    documents := s.documents.modify path fun d => { d with ranges := d.ranges.push id } }
  return id

/-- The item edges of a symbol in one document, definitions first. -/
def itemsOf (resultSet : Id) (o : Occurrences) : List Graph.Item :=
  (if o.definitions.isEmpty then []
    else [{ outV := resultSet, inVs := o.definitions.toList, document := o.document
            property := .definitions }]) ++
  (if o.references.isEmpty then []
    else [{ outV := resultSet, inVs := o.references.toList, document := o.document
            property := .references }])

/-- Freeze a symbol and write its item edges, document by document in the order
of the first occurrence. -/
def endSymbol (c : Context μ ω) (key : String) : Indexing μ ω Unit := do
  match (← get).symbols.get? key with
  | none => return
  | some n =>
      if n.ended then throw (.symbolEndedTwice key)
      for item in n.occurrences.values.flatMap (itemsOf n.resultSet) do
        let _ ← emit c (.item item)
      modify fun s => { s with
        symbols := s.symbols.modify key fun n => { n with ended := true } }

/-- Freeze a symbol that is still open. -/
def endOpenSymbol (c : Context μ ω) (key : String) : Indexing μ ω Unit := do
  match (← get).symbols.get? key with
  | none => return
  | some n => unless n.ended do endSymbol c key

/-- Freeze a document: its confined symbols, then the edge to its ranges. -/
def endDocument (c : Context μ ω) (path : String) : Indexing μ ω Unit := do
  match (← get).documents.get? path with
  | none => return
  | some d =>
      if d.ended then throw (.documentEndedTwice path)
      for key in d.locals do
        endOpenSymbol c key
      unless d.ranges.isEmpty do
        let _ ← emit c (.contains d.id d.ranges.toList)
      modify fun s => { s with
        documents := s.documents.modify path fun d => { d with locals := [], ended := true } }

end SymbolAtlas.Session
