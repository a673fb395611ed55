/-
# SymbolAtlas.Graph.Report -- elements of a graph as JSON

An element is an object with its ID, the name of its type and the members of that type.
What is missing when it is read is empty, zero or false.
-/
import SymbolAtlas.Graph
import SymbolAtlas.Json.Basic

set_option autoImplicit false

namespace SymbolAtlas

open Text (Span)

/-- A span as its four numbers. -/
def Text.Span.toJson (s : Span) : Json :=
  .ofInts [s.start.line, s.start.character, s.stop.line, s.stop.character]

/-- The span with four numbers. -/
def Text.Span.ofJson (j : Json) : Span :=
  match (j.arr?.getD []).filterMap Json.int? with
  | [a, b, c, d] => ⟨⟨a, b⟩, ⟨c, d⟩⟩
  | _ => {}

/-- A package. -/
def PackageInfo.toJson (p : PackageInfo) : Json :=
  .obj [("name", p.name), ("version", p.version), ("manager", p.manager)]

/-- The package of an object. -/
def PackageInfo.ofJson (j : Json) : PackageInfo :=
  { name := j.text "name", version := j.text "version", manager := j.text "manager" }

/-- A location. -/
def Location.toJson (l : Location) : Json :=
  .obj [("path", l.path), ("external", l.external), ("default_lib", l.defaultLibrary),
    ("package", l.package.toJson)]

/-- The location of an object. -/
def Location.ofJson (j : Json) : Location :=
  { path := j.text "path", external := j.flag "external", defaultLibrary := j.flag "default_lib"
    package := .ofJson (j.member "package") }

namespace Graph

/-- The name of an element's type and its members. -/
def Body.members : Body → String × List (String × Json)
  | .metadata m => ("metadata", [("version", m.version), ("project_root", m.projectRoot),
      ("tool_name", m.toolName), ("tool_version", m.toolVersion)])
  | .project p => ("project", [("name", p.name), ("root", p.root), ("kind", p.kind),
      ("run_id", p.runId)])
  | .document d => ("document", [("uri", d.uri), ("path", d.path),
      ("language_id", d.languageId), ("external", d.external),
      ("moniker_path", d.monikerPath), ("default_library", d.defaultLibrary)])
  | .resultSet s => ("result_set", [("symbol", s.symbol), ("name", s.name),
      ("variant", s.variant), ("local", s.isLocal)])
  | .range r => ("range", [("document", r.document), ("result_set", r.resultSet),
      ("range", r.span.toJson), ("role", r.role.name), ("text", r.text), ("kind", r.kind),
      ("full_range", r.fullSpan.toJson)])
  | .moniker m => ("moniker", [("scheme", m.scheme), ("identifier", m.identifier),
      ("kind", m.kind.name), ("package", m.package.toJson)])
  | .hover contents => ("hover", [("contents", contents)])
  | .contains outV inVs => ("contains", [("out_v", outV), ("in_vs", .ofInts inVs)])
  | .item i => ("item", [("out_v", i.outV), ("in_vs", .ofInts i.inVs), ("document", i.document),
      ("property", i.property.name)])
  | .next a b => ("next", [("out_v", a), ("in_v", b)])
  | .monikerEdge a b => ("moniker_edge", [("out_v", a), ("in_v", b)])
  | .hoverEdge a b => ("hover_edge", [("out_v", a), ("in_v", b)])
  | .foreign typeName _ => (typeName, [])

/-- An element. -/
def Element.toJson (e : Element) : Json :=
  let (typeName, members) := e.body.members
  .obj ([("t", .str typeName), ("id", .int e.id), ("label", .str e.body.label)] ++ members)

/-- The body of an object; `unknown` stands for types that are not known. -/
def Body.ofJson (unknown : Body) (j : Json) : Body :=
  let outV := j.number "out_v"
  let inV := j.number "in_v"
  let inVs := j.numbers "in_vs"
  match j.text "t" with
  | "metadata" => .metadata {
      version := j.text "version", projectRoot := j.text "project_root"
      toolName := j.text "tool_name", toolVersion := j.text "tool_version" }
  | "project" => .project {
      name := j.text "name", root := j.text "root", kind := j.text "kind", runId := j.text "run_id" }
  | "document" => .document {
      uri := j.text "uri", path := j.text "path", languageId := j.text "language_id"
      external := j.flag "external", monikerPath := j.text "moniker_path"
      defaultLibrary := j.flag "default_library" }
  | "result_set" => .resultSet {
      symbol := j.text "symbol", name := j.text "name", variant := j.text "variant"
      isLocal := j.flag "local" }
  | "range" => .range {
      document := j.number "document", resultSet := j.number "result_set"
      span := .ofJson (j.member "range"), role := .ofName (j.text "role"), text := j.text "text"
      kind := j.text "kind", fullSpan := .ofJson (j.member "full_range") }
  | "moniker" => .moniker {
      scheme := j.text "scheme", identifier := j.text "identifier"
      kind := .ofName (j.text "kind"), package := .ofJson (j.member "package") }
  | "hover" => .hover (j.text "contents")
  | "contains" => .contains outV inVs
  | "item" => .item {
      outV, inVs, document := j.number "document", property := .ofName (j.text "property") }
  | "next" => .next outV inV
  | "moniker_edge" => .monikerEdge outV inV
  | "hover_edge" => .hoverEdge outV inV
  | _ => unknown

/-- The element of an object. -/
def Element.ofJson (unknown : Body) (j : Json) : Element := ⟨j.number "id", .ofJson unknown j⟩

end Graph
end SymbolAtlas
