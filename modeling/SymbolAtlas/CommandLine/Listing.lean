/-
# SymbolAtlas.CommandLine.Listing -- the nodes of a module, line by line

A file is listed with one node a line, its children two blanks further in: kind, name
and span; for an identifier the symbol that it denotes with its variant, and if it is a
definition the full name of what it defines.
-/
import SymbolAtlas.Checked.Program
import SymbolAtlas.Naming
import SymbolAtlas.Text.Quoted
import SymbolAtlas.Variant

set_option autoImplicit false

namespace SymbolAtlas.CommandLine

open Text

/-- A listing on its way. -/
structure Listing where
  namer : Namer
  lines : Array String := #[]
  depth : Nat := 0

/-- Asks a checked program and writes lines. -/
abbrev ListingM := StateT Listing Checked.Asking

/-- The symbol that an identifier denotes, and its variant. -/
def symbolColumn (o : Oracle Checked.Memory) (n : Node) : Checked.Asking String := do
  match ← o.symbolAt n.id with
  | none => return ""
  | some s =>
      let variant ← Variant.classify o s (some n.id)
      return " sym=" ++ s.key ++ " variant=" ++ variant.name

/-- The full name of what an identifier defines. -/
def definitionColumn (o : Oracle Checked.Memory) (n : Node) : ListingM String := do
  if !o.isDefinitionSite (← getThe Checked.Memory) n then return ""
  let s ← get
  let (name, namer) ← liftM (s.namer.nameOf o n.parent)
  set { s with namer }
  return " def=" ++ Quoted.quote name.render

/-- Write the line of a node. -/
def listNode (o : Oracle Checked.Memory) (n : Node) : ListingM Bool := do
  let columns ← if n.kind = .identifier then do
      let symbol ← liftM (symbolColumn o n)
      pure (symbol ++ (← definitionColumn o n))
    else pure ""
  let name := if n.name = "" then "" else " " ++ n.name
  modify fun s =>
    let indent := String.ofList (List.replicate (2 * s.depth) ' ')
    let line := indent ++ n.kind.name ++ name ++ " " ++ n.span.render ++ columns
    { s with lines := s.lines.push line, depth := s.depth + 1 }
  return true

/-- Go back to the depth of a node's parent. -/
def leaveNode (_ : Node) : ListingM Unit := modify fun s => { s with depth := s.depth - 1 }

/-- List the files of a program, or the one with a relative path. -/
def listFiles (p : Checked.Program) (only : String) : ListingM Unit := do
  for file in p.files do
    let shown := (Path.relative? p.base.root file.root.file).getD ""
    if only = "" ∨ shown = only then
      modify fun s => { s with lines := s.lines.push ("== " ++ shown) }
      file.walk (listNode p.oracle) leaveNode

/-- The listing of a program. -/
def listing (p : Checked.Program) (namer : Namer) (only : String) : String :=
  let ((_, s), _) := (listFiles p only).run { namer } p.memory
  String.join (s.lines.toList.map (· ++ "\n"))

end SymbolAtlas.CommandLine
