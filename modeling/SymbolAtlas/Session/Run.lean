/-
# SymbolAtlas.Session.Run -- one pass over all files

`run` visits the files in order.  Every identifier that denotes a symbol becomes
a definition or a reference of it; a declaration that publishes its alias target
gives the target another moniker.  After the last file the open symbols end, then
the open documents, and the project is joined to every document.
-/
import SymbolAtlas.Cancellation
import SymbolAtlas.Session.Symbols

set_option autoImplicit false

namespace SymbolAtlas.Session

open SymbolAtlas.Graph (Id)

variable {μ ω : Type}

/-- Why a run ends early. -/
inductive RunError where
  | alreadyRan
  | canceled
  | refused (reason : String)
deriving DecidableEq, Repr

/-- The error in words. -/
def RunError.message : RunError → String
  | alreadyRan => "index: session already ran"
  | canceled => "context canceled"
  | refused reason => "emit: " ++ reason

/-- Give the target of the alias that `declaration` introduces the moniker under
which the current document publishes it. -/
def linkExport (c : Context μ ω) (declaration : Node) (name : String) : Indexing μ ω Unit := do
  match (← get).current with
  | none => throw .outsideDocument
  | some path =>
      match declaration.nameNode with
      | none => return
      | some nameNode =>
          match ← ask (c.oracle.symbolAt nameNode) with
          | none => return
          | some sym =>
              let key ← symbolNode c sym (some nameNode)
              match (← lookup key).variant with
              | some (.aliasOf (some target)) =>
                  let targetKey ← symbolNode c target (some nameNode)
                  let before ← lookup targetKey
                  let d := ((← get).documents.get? path).getD default
                  match d.location with
                  | none => return
                  | some location =>
                      if before.ended then return
                      let published := if name = "" then target.name else name
                      attachMoniker c targetKey {
                        scheme := c.options.scheme
                        identifier := Moniker.identifierOf location.path [published]
                        kind := .ofExternal d.external
                        package := location.package }
                      if before.monikers.size < (← lookup targetKey).monikers.size then
                        count fun s => { s with exportAliases := s.exportAliases + 1 }
              | _ => return

/-- Record what an identifier of the document `path` denotes. -/
def visitIdentifier (c : Context μ ω) (path : String) (name : Node) : Indexing μ ω Unit := do
  match ← ask (c.oracle.symbolAt name.id) with
  | none => count fun s => { s with skipped := s.skipped + 1 }
  | some sym =>
      let key ← symbolNode c sym (some name.id)
      if ← isDefinition c key name then markDefinition c key path name
      else addReference c key path name

/-- The visit of a node before its children.  After a refusal nothing is visited. -/
def enter (c : Context μ ω) (path : String) (n : Node) : Indexing μ ω Bool := do
  if (← get).failure.isSome then return false
  if n.kind = .identifier then visitIdentifier c path n
  return true

/-- The visit of a node after its children. -/
def leave (c : Context μ ω) (n : Node) : Indexing μ ω Unit := do
  if (← get).failure.isSome || !n.kind.isDeclaration then return
  match ← ask (c.oracle.exportAlias n.id) with
  | some name => linkExport c n name
  | none => return

/-- Index one file, unless its document ended already. -/
def indexFile (c : Context μ ω) (file : Tree) : Indexing μ ω Unit := do
  let path := file.root.file
  if (((← get).documents.get? path).map (·.ended)).getD false then return
  let _ ← document c path
  modify fun s => { s with current := some path }
  file.walk (enter c path) (leave c)
  modify fun s => { s with current := none }
  endDocument c path

/-- End what is open and join the project to its documents. -/
def finish (c : Context μ ω) : Indexing μ ω Unit := do
  for key in (← get).symbols.keys do
    endOpenSymbol c key
  for (path, d) in (← get).documents.entries do
    unless d.ended do endDocument c path
  let s ← get
  unless s.documents.entries.isEmpty do
    let _ ← emit c (.contains s.projectId (s.documents.values.map (·.id)))

/-- Index files one after the other until one fails.  Before each it is looked whether the run is
canceled; a look is known by the number of files that are left. -/
def indexFiles (c : Context μ ω) (canceled : Cancellation Nat) :
    List Tree → Indexing μ ω (Option RunError)
  | [] => do
      finish c
      return (← get).failure.map .refused
  | file :: rest => do
      if canceled.seen (rest.length + 1) then return some .canceled
      indexFile c file
      match (← get).failure with
      | some reason => return some (.refused reason)
      | none => indexFiles c canceled rest

/-- Run the session: the counters, and why it ended early if it did. -/
def run (c : Context μ ω) (canceled : Cancellation Nat) :
    Indexing μ ω (Stats × Option RunError) := do
  if (← get).ran then return ({}, some .alreadyRan)
  modify fun s => { s with ran := true }
  let _ ← emit c (.metadata {
    version := "0.4.3"
    projectRoot := "file://" ++ c.options.root
    toolName := c.options.toolName
    toolVersion := c.options.toolVersion })
  let projectId ← emit c (.project {
    name := c.options.projectName
    root := c.options.root
    kind := c.options.languageId
    runId := c.options.runId })
  let files := c.oracle.files
  modify fun s => { s with projectId, traversal := files.map (·.root.file) }
  let error ← indexFiles c canceled files
  return ((← get).stats, error)

end SymbolAtlas.Session
