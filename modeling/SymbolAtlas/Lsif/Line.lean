/-
# SymbolAtlas.Lsif.Line -- the lines of an LSIF dump

A dump is a list of JSON objects, one a line.  Each line is a vertex or an edge
with an ID of its own.  `Line.render` fixes the order of the members; members
that are marked as optional are left out when they are empty.
-/
import SymbolAtlas.Json.Printer
import SymbolAtlas.Text.Span

set_option autoImplicit false

namespace SymbolAtlas.Lsif

open Text (Span Position)

/-- The number of a line. -/
abbrev LineId := Nat

/-- What a range vertex says about its occurrence. -/
inductive Tag where
  | definition (text kind : String) (fullSpan : Span)
  | reference (text : String)
deriving DecidableEq, Repr, Inhabited

/-- The payload of a vertex. -/
inductive Vertex where
  | metaData (version projectRoot toolName toolVersion : String)
  | project (kind name : String)
  | document (uri languageId : String)
  | resultSet
  | range (span : Span) (tag : Option Tag)
  | moniker (scheme identifier kind : String)
  | packageInformation (name manager version : String)
  | hoverResult (contents : String)
  | definitionResult
  | referenceResult
deriving DecidableEq, Repr, Inhabited

/-- What joins one vertex to one other. -/
inductive Link where
  | next
  | moniker
  | hover
  | packageInformation
  | definition
  | references
deriving DecidableEq, Repr, Inhabited

/-- A line of a dump. -/
inductive Line where
  | vertex (id : LineId) (payload : Vertex)
  | edge (id : LineId) (link : Link) (outV inV : LineId)
  /-- Joins a project to documents, or a document to ranges. -/
  | contains (id : LineId) (outV : LineId) (inVs : List LineId)
  /-- Joins a result to the ranges of one document. -/
  | item (id : LineId) (outV : LineId) (inVs : List LineId) (document : LineId)
      (property : String)
deriving DecidableEq, Repr, Inhabited

/-- The label of a vertex. -/
def Vertex.label : Vertex → String
  | metaData .. => "metaData"
  | project .. => "project"
  | document .. => "document"
  | resultSet => "resultSet"
  | range .. => "range"
  | moniker .. => "moniker"
  | packageInformation .. => "packageInformation"
  | hoverResult _ => "hoverResult"
  | definitionResult => "definitionResult"
  | referenceResult => "referenceResult"

/-- The label of an edge. -/
def Link.label : Link → String
  | next => "next"
  | moniker => "moniker"
  | hover => "textDocument/hover"
  | packageInformation => "packageInformation"
  | definition => "textDocument/definition"
  | references => "textDocument/references"

/-- An optional member. -/
def optional (key value : String) : List (String × Json) :=
  if value = "" then [] else [(key, .str value)]

/-- A position as a JSON value. -/
def positionJson (p : Position) : Json :=
  .obj [("line", .int p.line), ("character", .int p.character)]

/-- The members of a span. -/
def spanMembers (s : Span) : List (String × Json) :=
  [("start", positionJson s.start), ("end", positionJson s.stop)]

/-- The tag of a range as a JSON value. -/
def Tag.toJson : Tag → Json
  | definition text kind full =>
      .obj ([("type", .str "definition"), ("text", .str text)] ++ optional "kind" kind ++
        [("fullRange", .obj (spanMembers full))])
  | reference text => .obj [("type", .str "reference"), ("text", .str text)]

/-- The members of a vertex after its label. -/
def Vertex.members : Vertex → List (String × Json)
  | metaData version root tool toolVersion =>
      [("version", .str version), ("projectRoot", .str root),
        ("positionEncoding", .str "utf-16"),
        ("toolInfo", .obj (("name", .str tool) :: optional "version" toolVersion))]
  | project kind name => ("kind", .str kind) :: optional "name" name
  | document uri language => [("uri", .str uri), ("languageId", .str language)]
  | range span tag => spanMembers span ++ (tag.map fun t => ("tag", t.toJson)).toList
  | moniker scheme identifier kind =>
      [("scheme", .str scheme), ("identifier", .str identifier), ("kind", .str kind)]
  | packageInformation name manager version =>
      [("name", .str name), ("manager", .str manager)] ++ optional "version" version
  | hoverResult contents =>
      [("result", .obj [("contents",
        .obj [("kind", .str "markdown"), ("value", .str contents)])])]
  | resultSet | definitionResult | referenceResult => []

/-- The first members of every line. -/
def header (id : LineId) (type label : String) : List (String × Json) :=
  [("id", .int id), ("type", .str type), ("label", .str label)]

/-- A list of IDs as a JSON value. -/
def idsJson (ids : List LineId) : Json := .arr (ids.map fun (id : LineId) => .int (id : Int))

namespace Line

/-- A line as a JSON value. -/
def toJson : Line → Json
  | vertex id payload => .obj (header id "vertex" payload.label ++ payload.members)
  | edge id link outV inV =>
      .obj (header id "edge" link.label ++ [("outV", .int outV), ("inV", .int inV)])
  | contains id outV inVs =>
      .obj (header id "edge" "contains" ++ [("outV", .int outV), ("inVs", idsJson inVs)])
  | item id outV inVs document property =>
      .obj (header id "edge" "item" ++
        [("outV", .int outV), ("inVs", idsJson inVs), ("document", .int document)] ++
        optional "property" property)

/-- The text of a line. -/
def render (l : Line) : String := l.toJson.compress ++ "\n"

/-- The ID of a line. -/
def id : Line → LineId
  | vertex id _ | edge id _ _ _ | contains id _ _ | item id _ _ _ _ => id

end Line
end SymbolAtlas.Lsif
