/-
# SymbolAtlas.Checked.Toolchain -- the toolchain that checks a module

The toolchain is asked for the packages below a directory.  What it answers is given;
what can go wrong on the way is decided here.
-/
import SymbolAtlas.Checked.Program

set_option autoImplicit false

namespace SymbolAtlas.Checked

open Text

/-- A toolchain, and what it answers. -/
structure Toolchain where
  /-- The command that is run. -/
  command : String := ""
  /-- The directory with the standard library. -/
  directory : String := ""
  /-- The version that the standard library is reported with. -/
  version : String := ""
  /-- The directory of downloaded modules. -/
  moduleCache : String := ""
  /-- The facts, or what the command says when it fails. -/
  answer : Except String Facts := .error ""

namespace Toolchain

/-- The report of a failed command. -/
def failure (t : Toolchain) (reason said : String) : LoadError :=
  .toolchain (t.command ++ ": " ++ reason ++ ": " ++ said)

/-- Ask for the packages below a directory.  The command is not started when the request
is canceled already, or when the directory cannot be entered. -/
def packages (t : Toolchain) (files : FileTree) (root : String) (canceled : Bool) :
    Except LoadError Facts :=
  if canceled then .error (t.failure "context canceled" "")
  else
    match files.stat root with
    | .error e => .error (t.failure ("chdir " ++ root ++ ": " ++ e.reason) "")
    | .ok .directory => t.answer.mapError (t.failure "exit status 1")
    | .ok _ => .error (t.failure ("fork/exec " ++ t.command ++ ": not a directory") "")

/-- Load the module at a directory. -/
def load (t : Toolchain) (files : FileTree) (root : String) (keeps : String → Bool)
    (canceled : Bool) : Except LoadError Program := do
  let root := Path.absolute files.workingDirectory root
  let facts ← t.packages files root canceled
  Program.load { facts, root, toolchain := t.directory, files } keeps

end Toolchain
end SymbolAtlas.Checked
