/-
# SymbolAtlas.CommandLine.Bundle -- what a command works on, in one document

A bundle holds the files around a command, the directory it is started in, and what the
toolchain answers, as one JSON document.  What is missing is empty.
-/
import SymbolAtlas.Checked.Report
import SymbolAtlas.CommandLine.Run
import SymbolAtlas.FileTree.Report
import SymbolAtlas.Json.Reader

set_option autoImplicit false

namespace SymbolAtlas.CommandLine

/-- The surroundings of a command. -/
structure Bundle where
  environment : Environment := {}
  disk : Disk := {}

namespace Bundle

/-- The toolchain of a bundle: without facts, its command fails. -/
def toolchainOf (j : Json) : Checked.Toolchain :=
  { command := j.text "command", directory := j.text "directory", version := j.text "version"
    moduleCache := j.text "module_cache"
    answer := match j.member "facts" with
      | .null => .error (j.text "failure")
      | facts => .ok (Checked.Report.factsOf facts) }

/-- The bundle that a JSON value describes. -/
def ofJson (j : Json) : Bundle :=
  { environment := {
      home := j.text "home", toolchain := toolchainOf (j.member "toolchain")
      stamp := { time := j.text "time", runId := j.text "run_id" } }
    disk := { files :=
      ({ workingDirectory := j.text "directory" } : FileTree).putEntries (j.items "files") } }

/-- Read a bundle; a text that is no JSON is refused. -/
def read? (text : String) : Option Bundle := (Json.read? text).map ofJson

end Bundle

/-- What is written to the two outputs of the program, and its exit code. -/
structure Report where
  output : String := ""
  complaint : String := ""
  exitCode : UInt32 := 0
deriving DecidableEq, Repr

/-- The report of a command that has run. -/
def Outcome.report (o : Outcome) : Report :=
  match o.error with
  | none => { output := o.output }
  | some e => { output := o.output, complaint := e.message ++ "\n", exitCode := 1 }

/-- Run a command in the surroundings that a text describes. -/
def runText (arguments : List String) (bundle : String) : Report :=
  match Bundle.read? bundle with
  | none => { complaint := "the bundle is not JSON\n", exitCode := 1 }
  | some b => (run b.environment arguments b.disk).1.report

end SymbolAtlas.CommandLine
