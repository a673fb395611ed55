/-
# SymbolAtlas.CommandLine.Run -- what the commands do

A command works on a disk: its files and the databases among them.  It prints a text, and
may fail after that.
-/
import SymbolAtlas.CommandLine.Command
import SymbolAtlas.CommandLine.Libraries
import SymbolAtlas.CommandLine.Listing
import SymbolAtlas.Disk
import SymbolAtlas.Repository.Update

set_option autoImplicit false

namespace SymbolAtlas.CommandLine

open Text

/-- What commands find around them. -/
structure Environment where
  /-- The home directory of the user. -/
  home : String := ""
  toolchain : Checked.Toolchain := {}
  /-- The stamp of the next run. -/
  stamp : RunStamp := {}
  /-- The signals that give a command up. -/
  canceled : Cancellation Look := false

/-- Why a command fails. -/
inductive CommandError where
  | usage (error : UsageError)
  | cache (path : String) (reason : FileError)
  | database (error : OpenError)
  | update (error : UpdateError)
  | load (error : Checked.LoadError)
deriving DecidableEq, Repr

/-- The error in words. -/
def CommandError.message : CommandError → String
  | usage error => error.message
  | cache path reason => "open store: mkdir cache: mkdir " ++ path ++ ": " ++ reason.reason
  | database error => "open store: " ++ error.message
  | update error => error.message
  | load error => error.message

/-- What a command printed, and why it failed if it did. -/
structure Outcome where
  output : String := ""
  error : Option CommandError := none
deriving Inhabited

/-- The directory of the database that is used if no other is named. -/
def cacheDirectory (env : Environment) : String :=
  Path.join [env.home, ".cache", programName]

/-- Open the database that the flags name. -/
def openDatabase (env : Environment) (disk : Disk) (path : String) :
    Except CommandError (Store × Disk) :=
  if path ≠ "" then (disk.openStore path).mapError .database
  else
    let cache := cacheDirectory env
    match disk.files.makeDirectories cache with
    | .error (taken, reason) => .error (.cache taken reason)
    | .ok files =>
        ({ disk with files }.openStore (Path.join [cache, "xref.db"])).mapError .database

/-- How the program is used. -/
def usage : String :=
  programName ++ " index [path] | serve | dump [path] | version\n"

/-- The line about an update. -/
def updateLine (project : String) (o : UpdateOutcome) : String :=
  if o.unchanged then project ++ ": unchanged\n"
  else
    let s := o.stats
    project ++ ": " ++ toString s.documents ++ " documents, " ++ toString s.symbols ++
      " symbols, " ++ toString s.definitions ++ " definitions, " ++ toString s.references ++
      " references, " ++ toString s.monikers ++ " monikers (run " ++ o.runId ++ ")\n"

/-- The path that a command works on. -/
def operandPath (p : Parsed) : String := p.operands.head?.getD "."

/-- Index a module into the database. -/
def runIndex (env : Environment) (p : Parsed) (disk : Disk) : Outcome × Disk :=
  match openDatabase env disk (p.text "db") with
  | .error e => ({ error := some e }, disk)
  | .ok (store, disk) =>
      let found := Repository.ofPath disk.files (operandPath p) none
      let tests := (p.switches.get? "tests").or found.settings.tests
      let r := { found with
        settings := { found.settings with tests }
        dumpPath := p.text "lsif"
        force := p.isOn "force"
        toolVersion := programVersion }
      let (result, store, files) := r.update disk.files env.toolchain env.stamp env.canceled store
      let disk := { disk with files }.save store
      match result with
      | .error e => ({ error := some (.update e) }, disk)
      | .ok outcome => ({ output := updateLine r.project outcome }, disk)

/-- Serve requests, of which there are none. -/
def runServe (env : Environment) (p : Parsed) (disk : Disk) : Outcome × Disk :=
  match openDatabase env disk (p.text "db") with
  | .error e => ({ error := some e }, disk)
  | .ok (_, disk) => ({}, disk)

/-- List the nodes of a module. -/
def runDump (env : Environment) (p : Parsed) (files : FileTree) : Outcome :=
  let root := Path.absolute files.workingDirectory (operandPath p)
  let settings := Settings.read files root
  match env.toolchain.load files root (fun _ => true) (env.canceled.seen .load) with
  | .error e => { error := some (.load e) }
  | .ok program =>
      let r : Repository := { root, settings }
      let locate := (r.mapper files env.toolchain).locate files
      { output := listing program (.start settings.monikerScheme locate) (p.text "file") }

/-- Run the command that arguments name. -/
def run (env : Environment) (arguments : List String) (disk : Disk) : Outcome × Disk :=
  match Invocation.ofArguments arguments with
  | .error e => ({ error := some (.usage e) }, disk)
  | .ok i =>
      if i.wantsHelp then ({ output := usage }, disk)
      else
        match i.command with
        | .index => runIndex env i.parsed disk
        | .serve => runServe env i.parsed disk
        | .dump => (runDump env i.parsed disk.files, disk)
        | .version => ({ output := programName ++ " " ++ programVersion ++ "\n" }, disk)
        | .overview | .help | .completion => ({ output := usage }, disk)

end SymbolAtlas.CommandLine
