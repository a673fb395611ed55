/-
# SymbolAtlas.Disk -- files, and the databases among them

A database lives in a file.  Opening a path makes the directories above it and a new
database where there is none; a file that holds something else is refused.  What a
store changes is on the disk once the store is saved.
-/
import SymbolAtlas.FileTree
import SymbolAtlas.Store.Basic

set_option autoImplicit false

namespace SymbolAtlas

open Text

/-- Files with the content of the databases among them. -/
structure Disk where
  files : FileTree := {}
  /-- Databases by the path of their file, without links. -/
  databases : Table String Store.Database := .empty
deriving Inhabited

/-- Why a database cannot be opened. -/
inductive OpenError where
  | directory (path : String) (reason : FileError)
  | notDatabase
  | cannotOpen
deriving DecidableEq, Repr

/-- The error in words. -/
def OpenError.message : OpenError → String
  | directory path reason => "mkdir db dir: mkdir " ++ path ++ ": " ++ reason.reason
  | notDatabase => "init schema: file is not a database (26)"
  | cannotOpen => "init schema: unable to open database file (14)"

namespace Disk

/-- The first bytes of the file of a database. -/
def databaseMark : ByteArray := "SQLite format 3\x00".toUTF8

/-- The path of the file that a path leads to, which need not exist. -/
def placeOf (d : Disk) (path : String) : String :=
  match d.files.resolve path, d.files.place path with
  | .ok place, _ | .error _, .ok place => place
  | .error _, .error _ => path

/-- Put the database of a store into its file. -/
def save (d : Disk) (s : Store) : Disk :=
  if s.path = Store.memoryPath then d
  else { d with databases := d.databases.insert (d.placeOf s.path) s.database }

/-- Open the database at a path. -/
def openStore (d : Disk) (path : String) : Except OpenError (Store × Disk) :=
  if path = Store.memoryPath then .ok ({}, d)
  else
    match d.files.makeDirectories (Path.directory path) with
    | .error (at_path, reason) => .error (.directory at_path reason)
    | .ok files =>
        let d := { d with files }
        let create : Except OpenError (Store × Disk) :=
          match files.writeFile path databaseMark 0 with
          | .ok files =>
              let s : Store := { path }
              .ok (s, { d with files }.save s)
          | .error _ => .error .cannotOpen
        match files.read path with
        | .error .notFound => create
        | .error _ => .error .cannotOpen
        | .ok content =>
            if content.isEmpty then create
            else
              match d.databases.get? (d.placeOf path), content == databaseMark with
              | some database, true => .ok ({ path, database }, d)
              | _, _ => .error .notDatabase

end Disk
end SymbolAtlas
