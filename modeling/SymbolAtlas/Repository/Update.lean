/-
# SymbolAtlas.Repository.Update -- bringing the store up to date with a repository

An update finds the sources, compares their digests with those that the project was
last indexed from, loads the module and writes its graph.  Graph and digests are
written together or not at all; a dump is removed again if that fails, or if its end cannot
be written.  On the way it looks again and again whether it is canceled.
-/
import SymbolAtlas.Checked.Toolchain
import SymbolAtlas.Lsif.Writer
import SymbolAtlas.PathMapper
import SymbolAtlas.Repository.Digests
import SymbolAtlas.Session.Run
import SymbolAtlas.Store.GraphWriter

set_option autoImplicit false

namespace SymbolAtlas

open Text

/-- Where an update looks whether it is canceled. -/
inductive Look where
  | start
  | search (look : Discovery.Look)
  /-- Before a file is read for its digest. -/
  | hash (path : String)
  | load
  /-- Before a file is indexed, while so many are left. -/
  | index (left : Nat)
deriving DecidableEq, Repr

/-- Why an update fails. -/
inductive UpdateError where
  /-- The update was canceled before it began. -/
  | canceled
  | searchCanceled
  | hashCanceled
  | unreadable (file : UnreadableFile)
  | unreadableSetting (file : UnreadableFile)
  | load (error : Checked.LoadError)
  | dump (path : String) (reason : FileError)
  | store (error : StoreError)
  | index (error : Session.RunError)
  /-- The last lines of the dump could not be written. -/
  | unfinished (reason : String)
  /-- The indexer broke one of its invariants. -/
  | broken (invariant : Session.Broken)
deriving DecidableEq, Repr

/-- The error in words. -/
def UpdateError.message : UpdateError → String
  | canceled => "context canceled"
  | searchCanceled => "discover: context canceled"
  | hashCanceled => "hash: context canceled"
  | unreadable file => "hash: " ++ file.message
  | unreadableSetting file => "hash settings: " ++ file.message
  | load error => "load: " ++ error.message
  | dump path reason => "create lsif: open " ++ path ++ ": " ++ reason.reason
  | store error => error.message
  | index error => "index: " ++ error.message
  | unfinished reason => "write lsif: " ++ reason
  | broken invariant => invariant.message

/-- When a run takes place, and what it is called. -/
structure RunStamp where
  time : String := ""
  runId : String := ""
deriving DecidableEq, Repr, Inhabited

/-- What an update did. -/
structure UpdateOutcome where
  /-- Nothing changed since the last one, and nothing was done. -/
  unchanged : Bool := false
  runId : String := ""
  stats : Session.Stats := {}
deriving DecidableEq, Repr, Inhabited

namespace Repository

variable [Globs] [Digester] [ModuleNames] [SettingsFormat]

/-- The digests of all that an index of the repository depends on. -/
def digests (r : Repository) (files : FileTree) (canceled : Cancellation Look := false) :
    Except UpdateError Digests := do
  match Discovery.search (canceled.among .search) files r.root r.discovery with
  | none => throw .searchCanceled
  | some sources =>
      let reached := sources.takeWhile fun f => !canceled.seen (.hash f.path)
      let found ← (sourceDigests files reached).mapError .unreadable
      if reached.length < sources.length then throw .hashCanceled
      (r.addSettings files found).mapError .unreadableSetting

/-- The repository as the store records it. -/
def record (r : Repository) (stamp : RunStamp) : Store.Project :=
  { name := r.project, indexedAt := stamp.time, rootPath := r.root, runId := stamp.runId }

/-- How the session of an update runs. -/
def sessionOptions (r : Repository) (stamp : RunStamp) : Session.Options :=
  { projectName := r.project, root := r.root, runId := stamp.runId
    scheme := r.settings.monikerScheme, hover := r.settings.emitsHover
    toolName := toolName, toolVersion := r.toolVersion : Session.Options }.filled

/-- The packages of files, as the repository's settings address them. -/
def mapper (r : Repository) (files : FileTree) (toolchain : Checked.Toolchain) : PathMapper :=
  .ofTree files r.root {
    sourceDir := r.settings.sourceDir, outputDir := r.settings.outputDir
    goroot := toolchain.directory, moduleCache := toolchain.moduleCache
    libraryVersion := toolchain.version }

/-- Load the module of the repository. -/
def loadModule (r : Repository) (files : FileTree) (toolchain : Checked.Toolchain)
    (canceled : Cancellation Look) : Except Checked.LoadError Checked.Program :=
  let included := (r.sources files).map (·.path)
  toolchain.load files r.root (fun path => included.contains path) (canceled.seen .load)

/-- The file of a dump.  What it refuses it refuses with the name under which it was opened. -/
def dumpSpool (r : Repository) (disk : FileTree) : Lsif.Spool :=
  if r.dumpPath ≠ "" ∧ disk.isFull r.dumpPath then
    { limit := some 0, refusal := "write " ++ r.dumpPath ++ ": " ++ FileError.noSpace.reason }
  else {}

/-- Write the graph of a loaded module and the digests that it comes from into a
database, and lines of a dump. -/
def writeGraph (r : Repository) (files : FileTree) (toolchain : Checked.Toolchain)
    (stamp : RunStamp) (canceled : Cancellation Look) (program : Checked.Program)
    (digests : Digests) (db : Store.Database) :
    Except UpdateError ((Session.Stats × Lsif.Writer) × Store.Database) := do
  let c : Session.Context Checked.Memory (Store.GraphWriter × Lsif.Writer) :=
    { oracle := program.oracle
      sink := .both Store.GraphWriter.sink Lsif.Writer.sink
      options := r.sessionOptions stamp
      locate := (r.mapper files toolchain).locate files }
  let start := Session.State.start c program.memory
    (Store.GraphWriter.start db (r.record stamp), { spool := r.dumpSpool files })
  match (Session.run c (canceled.among .index)).run start with
  | (.error invariant, _) => throw (.broken invariant)
  | (.ok (_, some error), _) => throw (.index error)
  | (.ok (stats, none), s) =>
      let (writer, dump) := s.output
      let db ← (writer.flush.database.replaceHashes r.project digests.entries).mapError .store
      return ((stats, dump.close), db)

/-- Write the graph in one transaction, and a dump of it if one is wanted.  The end of the dump is
written after the transaction. -/
def index (r : Repository) (disk : FileTree) (toolchain : Checked.Toolchain) (stamp : RunStamp)
    (canceled : Cancellation Look) (program : Checked.Program) (digests : Digests) (store : Store) :
    Except UpdateError Session.Stats × Store × FileTree :=
  let write (content : ByteArray) : Except FileError FileTree :=
    if r.dumpPath = "" then .ok disk else disk.writeFile r.dumpPath content 0
  match write .empty with
  | .error reason => (.error (.dump r.dumpPath reason), store, disk)
  | .ok opened =>
      let without := if r.dumpPath = "" then disk else (opened.remove r.dumpPath).toOption.getD opened
      match store.transaction .store (r.writeGraph disk toolchain stamp canceled program digests) with
      | .error e => (.error e, store, without)
      | .ok ((stats, dump), store) =>
          match dump.error with
          | some reason => (.error (.unfinished reason), store, without)
          | none => (.ok stats, store, (write dump.spool.written).toOption.getD opened)

/-- Bring the store up to date.  A dump is always written if it is wanted. -/
def update (r : Repository) (disk : FileTree) (toolchain : Checked.Toolchain) (stamp : RunStamp)
    (canceled : Cancellation Look) (store : Store) :
    Except UpdateError UpdateOutcome × Store × FileTree :=
  let prepared : Except UpdateError (Option (Checked.Program × Digests)) := do
    if canceled.seen .start then throw .canceled
    let digests ← r.digests disk canceled
    if !r.force && r.dumpPath = "" && r.isUnchanged store digests then return none
    return some (← (r.loadModule disk toolchain canceled).mapError .load, digests)
  match prepared with
  | .error e => (.error e, store, disk)
  | .ok none => (.ok { unchanged := true }, store, disk)
  | .ok (some (program, digests)) =>
      let (result, store, disk) := r.index disk toolchain stamp canceled program digests store
      (result.map fun stats => { runId := stamp.runId, stats }, store, disk)

end Repository
end SymbolAtlas
