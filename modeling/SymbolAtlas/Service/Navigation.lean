/-
# SymbolAtlas.Service.Navigation -- definitions, references, hovers and monikers

Symbols that share a moniker are one thing seen from several projects: the references
of a symbol are its own and those of all symbols with one of its monikers, each place
once.
-/
import SymbolAtlas.FileTree
import SymbolAtlas.Json.Printer
import SymbolAtlas.Service.Target
import SymbolAtlas.Store.Report
import SymbolAtlas.Text.Lines

set_option autoImplicit false

namespace SymbolAtlas.Service

open Text
open Json (listOrNull)
open Store (Place SymbolRow)

/-- An answer in JSON. -/
def Reply.ofJson (j : Json) : Reply := { text := j.pretty }

/-- An answer that says what went wrong. -/
def Reply.failed (text : String) : Reply := { text, isError := true }

/-- Answer a request about a position. -/
def atTarget (s : Store) (a : Arguments) (answer : Target → Except StoreError Reply) : Reply :=
  match Target.ofArguments s a with
  | .error e => .failed e.message
  | .ok t =>
      match answer t with
      | .ok reply => reply
      | .error e => .failed (t.refusal e)

/-- The first line of a definition, if its file can be read. -/
def sourceLine (files : FileTree) (s : Store) (p : Place) : List UInt8 :=
  let root := ((s.project p.project).toOption.map (·.rootPath)).getD ""
  let path := if Path.isRooted p.path then p.path else Path.join [root, p.path]
  let line := p.span.start.line + 1
  match (files.readBytes? path).map fun content => Lines.excerpt content line line with
  | some (.ok text) => text
  | _ => []

/-- A definition with its first line. -/
def definitionJson (files : FileTree) (s : Store) (p : Place) : Json :=
  .obj (p.members ++ Json.unlessEmpty "source" (Utf8.decode (sourceLine files s p)))

/-- The identifiers of a symbol's monikers. -/
def monikersJson (identifiers : List String) : Json := listOrNull (identifiers.map .str)

/-- The definitions of the symbol at a position. -/
def gotoDefinition (files : FileTree) (s : Store) (a : Arguments) : Reply :=
  atTarget s a fun t => do
    let symbol ← s.symbolAt t.project t.path t.position
    let definitions := s.database.definitions symbol
    return .ofJson (.obj [
      ("definitions", .arr (definitions.map (definitionJson files s))),
      ("monikers", monikersJson (s.database.monikersOf symbol)),
      ("symbol", symbol.toJson)])

/-- Where a place starts. -/
def startOf (p : Place) : String × String × Position := (p.project, p.path, p.span.start)

/-- Add the places that start where none starts yet. -/
def addPlaces (places more : List Place) : List Place :=
  more.foldl (fun places p =>
    if places.any fun q => startOf q = startOf p then places else places ++ [p]) places

/-- The references of a symbol and of all symbols with one of its monikers. -/
def sharedReferences (db : Store.Database) (symbol : SymbolRow) (withDeclaration : Bool) :
    List Place :=
  let others := (db.monikersOf symbol).flatMap db.byMoniker
  others.foldl (fun places m =>
    if m.symbol.id = symbol.id then places
    else addPlaces places (db.references m.symbol false)) (db.references symbol withDeclaration)

/-- The references of the symbol at a position. -/
def findReferences (s : Store) (a : Arguments) : Reply :=
  atTarget s a fun t => do
    let symbol ← s.symbolAt t.project t.path t.position
    let places := sharedReferences s.database symbol (a.flag "include_declaration")
    return .ofJson (.obj [
      ("count", places.length),
      ("monikers", monikersJson (s.database.monikersOf symbol)),
      ("references", listOrNull (places.map Place.toJson)),
      ("symbol", symbol.toJson)])

/-- The hover of the symbol at a position. -/
def hover (s : Store) (a : Arguments) : Reply :=
  atTarget s a fun t => return { text := ← s.hoverAt t.project t.path t.position }

/-- The symbols with a moniker in all projects. -/
def findMoniker (s : Store) (a : Arguments) : Reply :=
  let identifier := a.text "identifier"
  if identifier = "" then .failed "identifier is required"
  else
    match s.symbolsByMoniker identifier with
    | .error e => .failed ("find moniker: " ++ e.message)
    | .ok [] => .failed ("no symbol carries moniker " ++ identifier)
    | .ok matched => .ofJson (.obj [
        ("identifier", identifier), ("matches", .arr (matched.map (·.toJson)))])

end SymbolAtlas.Service
