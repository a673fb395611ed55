/-
# SymbolAtlas.Store.Queries -- navigation in a stored graph

A position selects the symbol of the innermost range that covers it.  Definitions and
hovers are looked up through aliases where a symbol has none of its own, up to eight
links away.  Monikers lead from one project to another.
-/
import SymbolAtlas.Store.Basic

set_option autoImplicit false

namespace SymbolAtlas.Store

open Text (Span Position)

/-- A place in a document. -/
structure Place where
  project : String
  path : String
  uri : String
  external : Bool
  span : Span
  text : String
  kind : String
  defaultLibrary : Bool
deriving DecidableEq, Repr, Inhabited

/-- A symbol found by a moniker. -/
structure MonikerMatch where
  moniker : Moniker
  symbol : SymbolRow
  definitions : List Place
deriving Inhabited

namespace Database

/-- Whether a range is no wider than another: fewer lines, or as many and fewer
characters. -/
def isTighter (a b : Span) : Bool :=
  let lines (s : Span) : Int := s.stop.line - s.start.line
  let characters (s : Span) : Int := s.stop.character - s.start.character
  lines a < lines b || (lines a = lines b && characters a ≤ characters b)

/-- Whether a position stands before another. -/
def isEarlier (a b : Position) : Bool :=
  a.line < b.line || (a.line = b.line && a.character < b.character)

/-- Whether a span starts at or before a position and stops after it. -/
def covers (s : Span) (p : Position) : Bool := !isEarlier p s.start && isEarlier p s.stop

/-- The ranges of the documents with a path that cover a position. -/
def covering (db : Database) (project path : String) (p : Position) : List RangeRow :=
  let documents := (db.documents.filter fun d => d.project = project ∧ d.path = path).map (·.id)
  db.ranges.toList.filter fun r => documents.contains r.document && covers r.span p

/-- The symbol of the innermost range that covers a position. -/
def symbolAt? (db : Database) (project path : String) (p : Position) : Option SymbolRow :=
  let ranges := (db.covering project path p).mergeSort fun a b => isTighter a.span b.span
  ranges.head?.bind fun r => db.symbol? r.symbol

/-- The place of a range. -/
def place? (db : Database) (r : RangeRow) : Option Place :=
  (db.document? r.document).map fun d =>
    { project := d.project, path := d.path, uri := d.uri, external := d.external, span := r.span
      text := r.text, kind := r.kind, defaultLibrary := d.defaultLibrary }

/-- The order of places: by path, then by start. -/
def isBefore (a b : Place) : Bool :=
  a.path < b.path || (a.path = b.path &&
    (a.span.start.line < b.span.start.line || (a.span.start.line = b.span.start.line &&
      a.span.start.character ≤ b.span.start.character)))

/-- The places that are listed under a symbol with one of some properties. -/
def itemPlaces (db : Database) (symbol : RowId) (properties : List String) : List Place :=
  let places := db.items.toList.filterMap fun i =>
    if i.symbol = symbol ∧ properties.contains i.property then
      (db.range? i.range).bind db.place?
    else none
  places.eraseDups.mergeSort isBefore

/-- The definitions of a symbol, or of the symbol it stands for, `hops` links away at
most. -/
def definitionsWithin (db : Database) : Nat → SymbolRow → List Place
  | 0, _ => []
  | hops + 1, s =>
      let places := db.itemPlaces s.id ["definitions"]
      match s.aliasOf.bind db.symbol? with
      | some target => if places.isEmpty then db.definitionsWithin hops target else places
      | none => places

/-- How many links are followed. -/
def aliasHops : Nat := 8

/-- The definitions of a symbol. -/
def definitions (db : Database) (s : SymbolRow) : List Place := db.definitionsWithin aliasHops s

/-- The references of a symbol, with its definitions if they are asked for. -/
def references (db : Database) (s : SymbolRow) (withDeclaration : Bool) : List Place :=
  db.itemPlaces s.id ("references" :: if withDeclaration then ["definitions"] else [])

/-- The symbol whose hover is shown for a symbol. -/
def hoverSource (db : Database) : Nat → SymbolRow → SymbolRow
  | 0, s => s
  | hops + 1, s =>
      if s.hover ≠ "" then s
      else
        match s.aliasOf.bind db.symbol? with
        | some target => db.hoverSource hops target
        | none => s

/-- The identifiers of a symbol's monikers. -/
def monikersOf (db : Database) (s : SymbolRow) : List String :=
  db.monikers.toList.filterMap fun m =>
    if m.symbol = s.id then some m.moniker.identifier else none

/-- The symbols with a moniker, by project, kind and number. -/
def byMoniker (db : Database) (identifier : String) : List MonikerMatch :=
  let rows := db.monikers.toList.filter (·.moniker.identifier = identifier)
  let key (m : MonikerRow) : String × String × Nat := (m.project, m.moniker.kind.name, m.symbol)
  let isBefore (a b : MonikerRow) : Bool :=
    let (p, k, s) := key a
    let (q, l, t) := key b
    p < q || (p = q && (k < l || (k = l && s ≤ t)))
  (rows.mergeSort isBefore).filterMap fun m =>
    (db.symbol? m.symbol).map fun symbol =>
      { moniker := m.moniker, symbol, definitions := db.definitions symbol }

end Database

/-! ## The store -/

/-- A position in words. -/
def positionName (project path : String) (p : Position) : String :=
  project ++ " " ++ path ++ ":" ++ toString p.line ++ ":" ++ toString p.character

/-- The symbol at a position. -/
def symbolAt (s : Store) (project path : String) (p : Position) : Except StoreError SymbolRow := do
  let db ← s.ask "symbol at"
  match db.symbolAt? project path p with
  | some row => return row
  | none => throw (.notFound (positionName project path p))

/-- The definitions of the symbol at a position. -/
def definitionsAt (s : Store) (project path : String) (p : Position) :
    Except StoreError (List Place) := do
  let row ← s.symbolAt project path p
  return s.database.definitions row

/-- The references of the symbol at a position. -/
def referencesAt (s : Store) (project path : String) (p : Position) (withDeclaration : Bool) :
    Except StoreError (List Place) := do
  let row ← s.symbolAt project path p
  return s.database.references row withDeclaration

/-- The hover of the symbol at a position. -/
def hoverAt (s : Store) (project path : String) (p : Position) : Except StoreError String := do
  let row ← s.symbolAt project path p
  let source := s.database.hoverSource Database.aliasHops row
  if source.hover = "" then throw (.notFound ("hover for " ++ source.name))
  return source.hover

/-- The symbols with a moniker in all projects. -/
def symbolsByMoniker (s : Store) (identifier : String) : Except StoreError (List MonikerMatch) := do
  let db ← s.ask "symbols by moniker"
  return db.byMoniker identifier

end SymbolAtlas.Store
