/-
# SymbolAtlas.Store.GraphWriter -- a graph on its way into the store

A writer takes the elements of one run.  It maps their IDs to rows; item edges are
collected and written in batches, at the latest when the edge that joins the project
to its documents has come.
-/
import SymbolAtlas.Graph
import SymbolAtlas.Store.Basic

set_option autoImplicit false

namespace SymbolAtlas.Store

open SymbolAtlas.Graph (Id Element Body)

/-- Why an element is refused. -/
inductive Refusal where
  | unknownDocument (id : Id)
  | unknownResultSet (id : Id)
  | unknownRange (id : Id)
  | unknownMoniker (id : Id)
  | unknownLink (outV inV : Id)
  | duplicateDocument
deriving DecidableEq, Repr

/-- The refusal in words. -/
def Refusal.message : Refusal → String
  | unknownDocument id => "unknown document " ++ toString id
  | unknownResultSet id => "unknown result set " ++ toString id
  | unknownRange id => "unknown range " ++ toString id
  | unknownMoniker id => "unknown moniker " ++ toString id
  | unknownLink outV inV =>
      "next edge " ++ toString outV ++ " -> " ++ toString inV ++ " between unknown result sets"
  | duplicateDocument =>
      "constraint failed: UNIQUE constraint failed: documents.project, documents.uri (2067)"

/-- A writer between two elements. -/
structure GraphWriter where
  database : Database
  project : String
  documents : Table Id RowId := .empty
  symbols : Table Id RowId := .empty
  ranges : Table Id RowId := .empty
  monikers : Table Id Moniker := .empty
  hovers : Table Id String := .empty
  /-- Items that are not written yet. -/
  pending : Array ItemRow := #[]
  written : Nat := 0

namespace GraphWriter

/-- How many items are written at once. -/
def batchSize : Nat := 249

/-- A writer for a project, whose record is written and whose old graph is gone. -/
def start (db : Database) (p : Project) : GraphWriter :=
  { database := (db.upsert p).clearGraph p.name, project := p.name }

/-- Write the pending items; one that stands already is not written twice. -/
def flush (w : GraphWriter) : GraphWriter :=
  let items := w.pending.foldl (fun (rows : Array ItemRow) item =>
    if rows.any fun r => r.symbol = item.symbol ∧ r.range = item.range ∧ r.property = item.property
    then rows else rows.push item) w.database.items
  { w with database := { w.database with items }, pending := #[] }

/-- Writes to the store, or refuses; what was collected before a refusal stays. -/
abbrev Writing := ExceptT Refusal (StateM GraphWriter)

/-- The symbol row of a result set. -/
def symbolOf (id : Id) : Writing RowId := do
  match (← get).symbols.get? id with
  | some row => return row
  | none => throw (.unknownResultSet id)

/-- Write a document. -/
def addDocument (id : Id) (d : Graph.Document) : Writing Unit := do
  let w ← get
  let db := w.database
  if db.documents.any fun row => row.project = w.project ∧ row.uri = d.uri then
    throw .duplicateDocument
  let row : DocumentRow :=
    { id := db.lastDocument + 1, project := w.project, path := d.path, uri := d.uri
      external := d.external, monikerPath := d.monikerPath, defaultLibrary := d.defaultLibrary }
  set { w with
    database := { db with documents := db.documents.push row, lastDocument := row.id }
    documents := w.documents.insert id row.id }

/-- Write a symbol. -/
def addSymbol (id : Id) (s : Graph.ResultSet) : Writing Unit := do
  let w ← get
  let db := w.database
  let row : SymbolRow :=
    { id := db.lastSymbol + 1, project := w.project, descriptor := s.symbol, name := s.name
      variant := s.variant, isLocal := s.isLocal }
  set { w with
    database := { db with symbols := db.symbols.push row, lastSymbol := row.id }
    symbols := w.symbols.insert id row.id }

/-- Write an occurrence. -/
def addRange (id : Id) (r : Graph.Range) : Writing Unit := do
  match (← get).documents.get? r.document with
  | none => throw (.unknownDocument r.document)
  | some document =>
      let symbol ← symbolOf r.resultSet
      let w ← get
      let db := w.database
      let row : RangeRow :=
        { id := db.lastRange + 1, project := w.project, document, symbol, role := r.role.name
          kind := r.kind, text := r.text, span := r.span }
      set { w with
        database := { db with ranges := db.ranges.push row, lastRange := row.id }
        ranges := w.ranges.insert id row.id }

/-- Write a moniker of a symbol. -/
def attachMoniker (outV inV : Id) : Writing Unit := do
  match (← get).monikers.get? inV with
  | none => throw (.unknownMoniker inV)
  | some moniker =>
      let symbol ← symbolOf outV
      let w ← get
      let db := w.database
      let row : MonikerRow := { id := db.lastMoniker + 1, project := w.project, symbol, moniker }
      set { w with database := { db with monikers := db.monikers.push row, lastMoniker := row.id } }

/-- Write the hover of a symbol. -/
def attachHover (outV inV : Id) : Writing Unit := do
  let symbol ← symbolOf outV
  modify fun w => { w with
    database := w.database.modifySymbol symbol fun s =>
      { s with hover := (w.hovers.get? inV).getD "" } }

/-- Write the symbol that another stands for. -/
def linkAlias (outV inV : Id) : Writing Unit := do
  let w ← get
  match w.symbols.get? outV, w.symbols.get? inV with
  | some origin, some target =>
      set { w with
        database := w.database.modifySymbol origin fun s => { s with aliasOf := some target } }
  | _, _ => throw (.unknownLink outV inV)

/-- Collect items until a range is unknown. -/
def addItems (symbol : RowId) (property : String) : List Id → Writing Unit
  | [] => return
  | id :: rest => do
      let w ← get
      match w.ranges.get? id with
      | none => throw (.unknownRange id)
      | some range =>
          let w := { w with pending := w.pending.push { project := w.project, symbol, range, property } }
          set (if batchSize ≤ w.pending.size then w.flush else w)
          addItems symbol property rest

/-- Write what an element stands for. -/
def write (e : Element) : Writing Unit := do
  match e.body with
  | .document d => addDocument e.id d
  | .resultSet s => addSymbol e.id s
  | .range r => addRange e.id r
  | .moniker m => modify fun w => { w with monikers := w.monikers.insert e.id m }
  | .monikerEdge outV inV => attachMoniker outV inV
  | .hover contents => modify fun w => { w with hovers := w.hovers.insert e.id contents }
  | .hoverEdge outV inV => attachHover outV inV
  | .next outV inV => linkAlias outV inV
  | .item i => addItems (← symbolOf i.outV) i.property.name i.inVs
  | .contains outV _ =>
      let w ← get
      unless w.documents.contains outV do set w.flush
  | .metadata _ | .project _ | .foreign .. => return

/-- Take an element: why it was refused, if it was, and the writer after it. -/
def emit (e : Element) (w : GraphWriter) : Option Refusal × GraphWriter :=
  match (write e).run w with
  | (.ok (), w) => (none, { w with written := w.written + 1 })
  | (.error refusal, w) => (some refusal, w)

/-- The reason that a writer gives for refusing an element. -/
def reason (e : Element) (refusal : Refusal) : String :=
  "store " ++ e.body.label ++ " " ++ toString e.id ++ ": " ++ refusal.message

/-- The writer as a sink of elements. -/
def sink : Graph.Sink GraphWriter := fun e w =>
  match w.emit e with
  | (none, w) => .ok w
  | (some refusal, _) => .error (reason e refusal)

end GraphWriter
end SymbolAtlas.Store
