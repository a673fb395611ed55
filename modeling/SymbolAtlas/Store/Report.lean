/-
# SymbolAtlas.Store.Report -- rows as JSON

Members that say nothing are left out: empty texts where a text is optional, and flags
that do not hold.  An empty list is null.
-/
import SymbolAtlas.Json.Basic
import SymbolAtlas.Store.Queries
import SymbolAtlas.Store.Summary

set_option autoImplicit false

namespace SymbolAtlas.Store

open Json (unlessEmpty ifTrue listOrNull)

/-- The members of a project. -/
def Project.members (p : Project) : List (String × Json) :=
  [("name", .str p.name), ("indexed_at", .str p.indexedAt), ("root_path", .str p.rootPath),
    ("run_id", .str p.runId)]

/-- A symbol. -/
def SymbolRow.toJson (s : SymbolRow) : Json :=
  .obj ([("project", Json.str s.project), ("symbol", .str s.descriptor), ("name", .str s.name),
    ("variant", .str s.variant)] ++ ifTrue "local" s.isLocal ++ unlessEmpty "hover" s.hover)

/-- The members of a place. -/
def Place.members (p : Place) : List (String × Json) :=
  [("project", Json.str p.project), ("path", .str p.path), ("uri", .str p.uri)] ++
    ifTrue "external" p.external ++
    [("start_line", .int p.span.start.line), ("start_character", .int p.span.start.character),
      ("end_line", .int p.span.stop.line), ("end_character", .int p.span.stop.character)] ++
    unlessEmpty "text" p.text ++ unlessEmpty "kind" p.kind ++
    ifTrue "default_library" p.defaultLibrary

/-- A place. -/
def Place.toJson (p : Place) : Json := .obj p.members

/-- A symbol found by a moniker. -/
def MonikerMatch.toJson (m : MonikerMatch) : Json :=
  .obj ([("scheme", Json.str m.moniker.scheme), ("identifier", .str m.moniker.identifier),
    ("kind", .str m.moniker.kind.name)] ++
    unlessEmpty "package_name" m.moniker.package.name ++
    unlessEmpty "package_version" m.moniker.package.version ++
    [("symbol", m.symbol.toJson), ("definitions", listOrNull (m.definitions.map Place.toJson))])

/-- A label with its count. -/
def LabelCount.toJson (c : LabelCount) : Json := .obj [("label", c.label), ("count", c.count)]

/-- The numbers of a project. -/
def Summary.toJson (s : Summary) : Json :=
  let counts (xs : List LabelCount) : Json := listOrNull (xs.map LabelCount.toJson)
  .obj [("documents", s.documents), ("external_documents", s.externalDocuments),
    ("symbols", s.symbols), ("ranges", s.ranges), ("monikers", s.monikers),
    ("variants", counts s.variants), ("definition_kinds", counts s.definitionKinds),
    ("moniker_kinds", counts s.monikerKinds),
    ("default_library_documents", s.defaultLibraryDocuments)]

end SymbolAtlas.Store
