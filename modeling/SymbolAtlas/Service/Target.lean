/-
# SymbolAtlas.Service.Target -- the position that a request is about

A request names a file and a position in it.  A file with a rooted path selects the
project by itself: the one whose root contains it most closely.
-/
import SymbolAtlas.Service.Arguments
import SymbolAtlas.Store.Queries
import SymbolAtlas.Text.Path

set_option autoImplicit false

namespace SymbolAtlas.Service

open Text

/-- A position in a file of a project. -/
structure Target where
  project : String
  root : String
  /-- The file as the project shows it. -/
  path : String
  position : Position
deriving DecidableEq, Repr

/-- Why a request is about no position. -/
inductive TargetError where
  | fileMissing
  | positionMissing
  | projectMissing
  | notIndexed (file : String)
  | store (error : StoreError)
deriving DecidableEq, Repr

/-- The error in words. -/
def TargetError.message : TargetError → String
  | fileMissing => "file is required"
  | positionMissing => "line and character are required (zero-based)"
  | projectMissing => "project is required when file is relative"
  | notIndexed file => "no indexed project contains " ++ file
  | store error => error.message

/-- Prefer a project to the best one so far if its root contains the file and is longer. -/
def closer (file : String) (best p : Store.Project) : Store.Project :=
  if Path.isWithin p.rootPath file && best.rootPath.utf8ByteSize < p.rootPath.utf8ByteSize then p
  else best

/-- The project whose root contains a file most closely. -/
def closestProject? (projects : List Store.Project) (file : String) : Option Store.Project :=
  some (projects.foldl (closer file) { name := "" }) |>.filter (·.name ≠ "")

/-- A file as a project with that root shows it. -/
def shownPath (root file : String) : String :=
  if Path.isRooted file then (Path.within? root file).getD (Path.clean file) else Path.clean file

namespace Target

/-- The project of a request. -/
def projectFor (s : Store) (name file : String) : Except TargetError Store.Project :=
  if name ≠ "" then (s.project name).mapError .store
  else if !Path.isRooted file then .error .projectMissing
  else
    match s.listProjects with
    | .error e => .error (.store e)
    | .ok projects =>
        match closestProject? projects file with
        | some p => .ok p
        | none => .error (.notIndexed file)

/-- The position that arguments name. -/
def ofArguments (s : Store) (a : Arguments) : Except TargetError Target := do
  let file := a.text "file"
  let position : Position := ⟨a.number "line", a.number "character"⟩
  if file = "" then throw .fileMissing
  if position.line < 0 ∨ position.character < 0 then throw .positionMissing
  let p ← projectFor s (a.text "project") file
  return { project := p.name, root := p.rootPath, path := shownPath p.rootPath file, position }

/-- The answer to a lookup that failed. -/
def refusal (t : Target) : StoreError → String
  | .notFound _ =>
      "no symbol at " ++ t.path ++ ":" ++ toString t.position.line ++ ":" ++
        toString t.position.character ++ " in project " ++ t.project
  | error => error.message

end Target
end SymbolAtlas.Service
