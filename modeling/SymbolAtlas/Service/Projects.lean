/-
# SymbolAtlas.Service.Projects -- requests about whole projects
-/
import SymbolAtlas.Repository.Update
import SymbolAtlas.Service.Navigation

set_option autoImplicit false

namespace SymbolAtlas.Service

open Text

/-- What requests work on. -/
structure World where
  files : FileTree := {}
  store : Store := {}
deriving Inhabited

/-- What requests find around them. -/
structure Environment where
  toolchain : Checked.Toolchain := {}
  /-- The version of the server. -/
  version : String := ""
  /-- The stamp of the next run. -/
  stamp : RunStamp := {}
  canceled : Cancellation Look := false

/-- The numbers of a project. -/
def getSummary (s : Store) (a : Arguments) : Reply :=
  let project := a.text "project"
  if project = "" then .failed "project is required"
  else
    match s.summary project with
    | .error e => .failed ("summary: " ++ e.message)
    | .ok summary => .ofJson (.obj [("project", project), ("summary", summary.toJson)])

/-- All projects with the numbers of their documents and symbols. -/
def listProjects (s : Store) : Reply :=
  match s.listProjects with
  | .error e => .failed ("list projects: " ++ e.message)
  | .ok projects => .ofJson (.arr (projects.map fun p =>
      let summary := s.database.summary p.name
      .obj (p.members ++ [("documents", .int summary.documents), ("symbols", .int summary.symbols)])))

/-- Forget a project. -/
def deleteProject (s : Store) (a : Arguments) : Reply × Store :=
  let name := a.text "project_name"
  if name = "" then (.failed "project_name is required", s)
  else
    match s.deleteProject name with
    | .error (.notFound _) => (.failed ("project not found: " ++ name), s)
    | .error e => (.failed ("delete failed: " ++ e.message), s)
    | .ok s => (.ofJson (.obj [("deleted", name), ("status", "ok")]), s)

variable [Globs] [Digester] [ModuleNames] [SettingsFormat]

/-- Bring a project up to date with its directory. -/
def updateProject (env : Environment) (w : World) (path : String) (force : Bool) :
    Except UpdateError (Repository × UpdateOutcome) × World :=
  let r := { Repository.ofPath w.files path none with force, toolVersion := env.version }
  let (result, store, files) := r.update w.files env.toolchain env.stamp env.canceled w.store
  (result.map fun outcome => (r, outcome), { files, store })

/-- What an update did, with the record of the project. -/
def outcomeJson (p : Store.Project) (o : UpdateOutcome) : Json :=
  let counts : List (String × Json) := if o.unchanged then [] else
    [("definitions", o.stats.definitions), ("documents", o.stats.documents),
      ("monikers", o.stats.monikers), ("references", o.stats.references),
      ("symbols", o.stats.symbols)]
  let members := counts ++ [("indexed_at", .str p.indexedAt), ("project", .str p.name),
    ("run_id", .str p.runId), ("unchanged", .bool o.unchanged)]
  .obj (members.mergeSort fun a b => a.1 ≤ b.1)

/-- Index the repository at a path. -/
def indexRepository (env : Environment) (w : World) (a : Arguments) : Reply × World :=
  let path := a.text "repo_path"
  if path = "" then (.failed "repo_path is required", w)
  else
    let (result, w) := updateProject env w path (a.flag "force")
    let reply : Reply := match result with
      | .error e => .failed ("indexing failed: " ++ e.message)
      | .ok (r, outcome) =>
          match w.store.project r.project with
          | .error e => .failed ("indexing failed: " ++ e.message)
          | .ok p => .ofJson (outcomeJson p outcome)
    (reply, w)

/-! ## Requests by name -/

/-- Answer a request with its arguments, if they could be read. -/
def call (env : Environment) (tool : String) (arguments : Option Arguments) (w : World) :
    Reply × World :=
  if tool = "list_projects" then (listProjects w.store, w)
  else
    match arguments with
    | none => (.failed "invalid arguments", w)
    | some a =>
        match tool with
        | "index_repository" => indexRepository env w a
        | "goto_definition" => (gotoDefinition w.files w.store a, w)
        | "find_references" => (findReferences w.store a, w)
        | "hover" => (hover w.store a, w)
        | "find_moniker" => (findMoniker w.store a, w)
        | "get_summary" => (getSummary w.store a, w)
        | "delete_project" =>
            let (reply, store) := deleteProject w.store a
            (reply, { w with store })
        | _ => (.failed ("unknown tool " ++ tool), w)

end SymbolAtlas.Service
