/-
# SymbolAtlas.Sketch.Script -- sketches from a description

A script is a list of steps, each an object that says what to do.  Steps name the nodes
and symbols that they add, and later steps mention these names; the name of a
declaration with `.name` behind it mentions the identifier that names it.
-/
import SymbolAtlas.Json.Basic
import SymbolAtlas.Sketch
import SymbolAtlas.Text.Path

set_option autoImplicit false

namespace SymbolAtlas

open Text

/-- A sketch with the names that its script gave. -/
structure Script where
  sketch : Sketch := {}
  nodes : Table String NodeId := .empty
  symbols : Table String Nat := .empty
deriving Inhabited

namespace Script

/-- The node that a name mentions. -/
def node? (s : Script) (ref : String) : Option NodeId :=
  if Path.endsWith ref ".name" then
    (s.nodes.get? (Path.trimTail ref ".name")).bind fun id => (s.sketch.node id).nameNode
  else s.nodes.get? ref

/-- The symbol that a name mentions. -/
def symbol? (s : Script) (ref : String) : Option Nat := s.symbols.get? ref

/-- The symbols that the names in an array mention. -/
def symbolsIn (s : Script) (j : Json) : List Nat :=
  (j.arr?.getD []).filterMap fun ref => ref.str?.bind s.symbol?

/-- The flags in an array of their names. -/
def flagsIn (names : List String) : SymbolFlags :=
  { aliasing := names.contains "alias", transient := names.contains "transient"
    module := names.contains "module", typeOnly := names.contains "type_only"
    member := names.contains "member" }

/-- Do one step. -/
def step (d : Script) (j : Json) : Script :=
  let s := d.sketch
  let name := j.text "name"
  let parent := (d.node? (j.text "parent")).getD ⟨0⟩
  let node := (d.node? (j.text "node")).getD ⟨0⟩
  let symbol := (d.symbol? (j.text "symbol")).getD 0
  let container := (d.symbol? (j.text "container")).getD 0
  let kind := NodeKind.ofName (j.text "kind")
  let add (r : NodeId × Sketch) : Script :=
    { d with sketch := r.2, nodes := d.nodes.insert (j.text "id") r.1 }
  let draw (s : Sketch) : Script := { d with sketch := s }
  match j.text "do" with
  | "file" => add (s.addFile (j.text "path"))
  | "library" => add (s.addLibrary (j.text "path"))
  | "container" => add (s.addChild parent kind "")
  | "declare" => add (s.declare parent kind name)
  | "ident" => add (s.addChild parent .identifier name)
  | "symbol" =>
      let (handle, s) := s.addSymbol (j.text "key") name (flagsIn (j.texts "flags"))
      { d with sketch := s, symbols := d.symbols.insert (j.text "id") handle }
  | "bind" => draw (s.bind node symbol)
  | "declarations" => draw (s.addDeclarations symbol ((j.texts "nodes").filterMap d.node?))
  | "define" => add (s.define parent kind name symbol)
  | "ref" => add (s.addUse parent symbol)
  | "alias" => draw (s.setAlias symbol (d.symbol? (j.text "target")))
  | "composite" => draw (s.setComposite symbol
      (match j.member "members" with | .null => none | m => some (d.symbolsIn m)))
  | "member_of" => draw (s.setContainer symbol container)
  | "bases" => draw (s.setBases container name (d.symbolsIn (j.member "bases")))
  | "export_path" => draw (s.setExportPath symbol (j.texts "segments"))
  | "export_alias" => draw (s.setExportAlias node name)
  | "external" => draw { s with externalFiles := j.text "path" :: s.externalFiles }
  | "default_lib" => draw { s with defaultLibraries := j.text "path" :: s.defaultLibraries }
  | "hover" => draw (s.modifySymbol symbol fun e =>
      { e with hover := ⟨j.text "signature", j.text "doc"⟩ })
  | "hover_error" => draw (s.modifySymbol symbol fun e =>
      { e with hoverError := some (j.text "message") })
  | "owner" => draw (s.modifyNode node fun n => { n with owner := d.node? (j.text "owner") })
  | "redeclarable" => draw (s.modifyNode node fun n =>
      { n with node := { n.node with redeclarable := true } })
  | _ => d

/-- The sketch of a script. -/
def ofSteps (steps : List Json) : Script := steps.foldl step {}

end Script
end SymbolAtlas
