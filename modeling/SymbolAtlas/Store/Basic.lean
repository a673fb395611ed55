/-
# SymbolAtlas.Store.Basic -- a store of projects

A store answers from its database until it is closed.  `transaction` runs a change
that is kept as a whole or not at all.
-/
import SymbolAtlas.Store.Database
import SymbolAtlas.Text.Quoted

set_option autoImplicit false

namespace SymbolAtlas

/-- Why a store gives no answer. -/
inductive StoreError where
  /-- There is no row for what was asked. -/
  | notFound (what : String)
  /-- The store was closed before the operation. -/
  | closed (operation : String)
  /-- The operation would leave a row without its project. -/
  | orphan (operation : String)
deriving DecidableEq, Repr

/-- The error in words. -/
def StoreError.message : StoreError → String
  | notFound what => what ++ ": store: not found"
  | closed operation => operation ++ ": sql: database is closed"
  | orphan operation =>
      operation ++ ": constraint failed: FOREIGN KEY constraint failed (787)"

/-- The path of a database that is kept in memory only. -/
def Store.memoryPath : String := ":memory:"

/-- A database that can be asked until it is closed. -/
structure Store where
  /-- The file that holds the database. -/
  path : String := Store.memoryPath
  database : Store.Database := {}
  isOpen : Bool := true
deriving Inhabited

namespace Store

/-- The database, for an operation with a name. -/
def ask (s : Store) (operation : String) : Except StoreError Database :=
  if s.isOpen then .ok s.database else .error (.closed operation)

/-- Close the store. -/
def close (s : Store) : Store := { s with isOpen := false }

/-- Run a change on the database; if it fails the store stays as it was. -/
def transaction {ε α : Type} (s : Store) (lift : StoreError → ε)
    (change : Database → Except ε (α × Database)) : Except ε (α × Store) := do
  let db ← (s.ask "begin tx").mapError lift
  let (a, db) ← change db
  return (a, { s with database := db })

/-! ## Projects -/

/-- The error about a project that is not there. -/
def noProject (name : String) : StoreError :=
  .notFound ("project " ++ Text.Quoted.quote name)

/-- Record a project, or change the record that it has. -/
def Database.upsert (db : Database) (p : Project) : Database :=
  { db with projects := db.projects.insert p.name p }

/-- Record a project. -/
def upsertProject (s : Store) (p : Project) : Except StoreError Store := do
  let db ← s.ask "upsert project"
  return { s with database := db.upsert p }

/-- A project by name. -/
def project (s : Store) (name : String) : Except StoreError Project := do
  let db ← s.ask "get project"
  match db.projects.get? name with
  | some p => return p
  | none => throw (noProject name)

/-- All projects by name. -/
def listProjects (s : Store) : Except StoreError (List Project) := do
  let db ← s.ask "list projects"
  return db.projects.values.mergeSort fun a b => a.name ≤ b.name

/-- Forget a project and all that belongs to it. -/
def deleteProject (s : Store) (name : String) : Except StoreError Store := do
  let db ← s.ask "delete project"
  if db.projects.contains name then return { s with database := db.removeProject name }
  else throw (noProject name)

/-- Forget the graph of a project. -/
def clearGraph (s : Store) (project : String) : Except StoreError Store := do
  let db ← s.ask "clear items"
  return { s with database := db.clearGraph project }

/-! ## Digests -/

/-- The digests of a project's files by path. -/
def fileHashes (s : Store) (project : String) : Except StoreError (List (String × String)) := do
  let db ← s.ask "get file hashes"
  return db.hashes.entries.filterMap fun ((p, path), hash) =>
    if p = project then some (path, hash) else none

/-- Put digests in the place of those that a project has. -/
def Database.replaceHashes (db : Database) (project : String) (hashes : List (String × String)) :
    Except StoreError Database :=
  let db := db.clearHashes project
  let put (t : Table (String × String) String) (entry : String × String) :
      Table (String × String) String := t.insert (project, entry.1) entry.2
  if hashes.isEmpty then .ok db
  else if !db.projects.contains project then .error (.orphan "insert file hash")
  else .ok { db with hashes := hashes.foldl put db.hashes }

/-- Put digests in the place of those that a project has. -/
def replaceFileHashes (s : Store) (project : String) (hashes : List (String × String)) :
    Except StoreError Store := do
  let db ← s.ask "clear file hashes"
  return { s with database := ← db.replaceHashes project hashes }

end Store
end SymbolAtlas
