/-
# SymbolAtlas.Store.Database -- the rows of a cross-reference store

Every row belongs to a project.  Documents, symbols, ranges and monikers are
numbered; a number is given once, also across projects and after deletions.  Removing
a project removes all of its rows, removing its graph keeps the project and the
digests of its files.
-/
import SymbolAtlas.Moniker
import SymbolAtlas.Table
import SymbolAtlas.Text.Span

set_option autoImplicit false

namespace SymbolAtlas.Store

open Text (Span)

/-- The number of a row. -/
abbrev RowId := Nat

/-- An indexed project. -/
structure Project where
  name : String
  indexedAt : String := ""
  rootPath : String := ""
  runId : String := ""
deriving DecidableEq, Repr, Inhabited

/-- A file of a project, or of a library it uses. -/
structure DocumentRow where
  id : RowId
  project : String
  path : String
  uri : String
  external : Bool
  monikerPath : String
  defaultLibrary : Bool
deriving DecidableEq, Repr, Inhabited

/-- A symbol; `aliasOf` is the symbol that it stands for. -/
structure SymbolRow where
  id : RowId
  project : String
  descriptor : String
  name : String
  variant : String
  isLocal : Bool
  hover : String := ""
  aliasOf : Option RowId := none
deriving DecidableEq, Repr, Inhabited

/-- An occurrence of a symbol in a document. -/
structure RangeRow where
  id : RowId
  project : String
  document : RowId
  symbol : RowId
  role : String
  kind : String
  text : String
  span : Span
deriving DecidableEq, Repr, Inhabited

/-- Lists a range under a symbol. -/
structure ItemRow where
  project : String
  symbol : RowId
  range : RowId
  property : String
deriving DecidableEq, Repr, Inhabited

/-- A moniker of a symbol. -/
structure MonikerRow where
  id : RowId
  project : String
  symbol : RowId
  moniker : Moniker
deriving DecidableEq, Repr, Inhabited

/-- All rows, and the last numbers that were given. -/
structure Database where
  projects : Table String Project := .empty
  /-- The digest of each file, by project and path. -/
  hashes : Table (String × String) String := .empty
  documents : Array DocumentRow := #[]
  symbols : Array SymbolRow := #[]
  ranges : Array RangeRow := #[]
  items : Array ItemRow := #[]
  monikers : Array MonikerRow := #[]
  lastDocument : RowId := 0
  lastSymbol : RowId := 0
  lastRange : RowId := 0
  lastMoniker : RowId := 0
deriving Inhabited

namespace Database

/-- Forget the graph of a project.  Links from the symbols of other projects to its
symbols are cut. -/
def clearGraph (db : Database) (project : String) : Database :=
  let gone := (db.symbols.filter (·.project = project)).map (·.id)
  let symbols := (db.symbols.filter (·.project ≠ project)).map fun s =>
    { s with aliasOf := s.aliasOf.filter fun target => !gone.contains target }
  { db with
    items := db.items.filter (·.project ≠ project)
    monikers := db.monikers.filter (·.project ≠ project)
    ranges := db.ranges.filter (·.project ≠ project)
    symbols
    documents := db.documents.filter (·.project ≠ project) }

/-- Forget the digests of a project. -/
def clearHashes (db : Database) (project : String) : Database :=
  { db with hashes := db.hashes.filter fun entry => entry.1.1 ≠ project }

/-- Forget a project and all that belongs to it. -/
def removeProject (db : Database) (project : String) : Database :=
  let db := (db.clearGraph project).clearHashes project
  { db with projects := db.projects.erase project }

/-- The symbol with a number. -/
def symbol? (db : Database) (id : RowId) : Option SymbolRow := db.symbols.find? (·.id = id)

/-- The document with a number. -/
def document? (db : Database) (id : RowId) : Option DocumentRow :=
  db.documents.find? (·.id = id)

/-- The range with a number. -/
def range? (db : Database) (id : RowId) : Option RangeRow := db.ranges.find? (·.id = id)

/-- Change the symbol with a number. -/
def modifySymbol (db : Database) (id : RowId) (f : SymbolRow → SymbolRow) : Database :=
  { db with symbols := db.symbols.map fun s => if s.id = id then f s else s }

/-- A database of a version that did not tell default libraries apart, read by this
one. -/
def forgetLibraries (db : Database) : Database :=
  { db with documents := db.documents.map fun d => { d with defaultLibrary := false } }

end Database
end SymbolAtlas.Store
