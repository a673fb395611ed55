/-
# SymbolAtlas.Repository.Basic -- a repository that is indexed

A repository is a directory, the project that it is indexed as, and how to index it.
The project is named after the path of the directory.
-/
import SymbolAtlas.Settings

set_option autoImplicit false

namespace SymbolAtlas

open Text

/-- A directory to be indexed as a project. -/
structure Repository where
  root : String := ""
  project : String := ""
  settings : Settings := {}
  /-- Where a dump of the graph is written; empty if none is wanted. -/
  dumpPath : String := ""
  /-- Index the project also if nothing changed. -/
  force : Bool := false
  toolVersion : String := "dev"
deriving Inhabited

namespace Repository

/-- The name under which graphs mention this program. -/
def toolName : String := "codebase-xref"

/-- A text without the dashes at its start. -/
def dropDashes (text : List Char) : List Char := text.dropWhile (· = '-')

/-- The project of a path: its elements joined by dashes, without colons and without
dashes at the start. -/
def projectName (path : String) : String :=
  let dashed := (Path.clean path).toList.map fun c => if c = '/' then '-' else c
  let name := String.ofList (dropDashes (dashed.filter (· ≠ ':')))
  if name = "" then "root" else name

/-- The repository at a path, links on the way there followed.  Its settings are those
of its directory unless others are given. -/
def ofPath [SettingsFormat] (files : FileTree) (path : String) (settings : Option Settings) :
    Repository :=
  let path := Path.absolute files.workingDirectory path
  let root := (files.resolve path).toOption.getD path
  { root, project := projectName root, settings := settings.getD (.read files root) }

end Repository
end SymbolAtlas
