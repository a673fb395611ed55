/-
# SymbolAtlas.Store.Summary -- a project in numbers
-/
import SymbolAtlas.Store.Basic

set_option autoImplicit false

namespace SymbolAtlas.Store

/-- How often a label occurs. -/
structure LabelCount where
  label : String
  count : Nat
deriving DecidableEq, Repr, Inhabited

/-- The numbers of a project. -/
structure Summary where
  documents : Nat
  externalDocuments : Nat
  symbols : Nat
  ranges : Nat
  monikers : Nat
  variants : List LabelCount
  definitionKinds : List LabelCount
  monikerKinds : List LabelCount
  defaultLibraryDocuments : Nat
deriving DecidableEq, Repr, Inhabited

/-- How often each label occurs, the most frequent first, then by label. -/
def countLabels (labels : List String) : List LabelCount :=
  let counts := labels.eraseDups.map fun label => { label, count := labels.count label }
  counts.mergeSort fun (a b : LabelCount) =>
    b.count < a.count || (a.count = b.count && a.label ≤ b.label)

/-- The numbers of a project's rows. -/
def Database.summary (db : Database) (project : String) : Summary :=
  let documents := db.documents.toList.filter (·.project = project)
  let symbols := db.symbols.toList.filter (·.project = project)
  let ranges := db.ranges.toList.filter (·.project = project)
  let monikers := db.monikers.toList.filter (·.project = project)
  { documents := documents.length
    externalDocuments := (documents.filter (·.external)).length
    symbols := symbols.length
    ranges := ranges.length
    monikers := monikers.length
    variants := countLabels (symbols.map (·.variant))
    definitionKinds := countLabels ((ranges.filter (·.role = "definition")).map (·.kind))
    monikerKinds := countLabels (monikers.map (·.moniker.kind.name))
    defaultLibraryDocuments := (documents.filter (·.defaultLibrary)).length }

/-- The numbers of a project. -/
def summary (s : Store) (project : String) : Except StoreError Summary := do
  let _ ← s.project project
  return s.database.summary project

end SymbolAtlas.Store
