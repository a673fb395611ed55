/-
# SymbolAtlas.Proofs.Store.Offsets -- answers do not depend on the numbers of rows

The rows of a database may be numbered from elsewhere on (`Database.moved`).  Then every answer
is what it was, in the same order, with the numbers in it moved as well.
-/
import Mathlib.Data.List.Basic
import SymbolAtlas.Store.Queries
import SymbolAtlas.Store.Summary

set_option autoImplicit false

namespace SymbolAtlas.Store

open Text (Position)

/-! ## Moving numbers -/

/-- How far the numbers of rows are moved. -/
structure Offset where
  documents : Nat := 0
  symbols : Nat := 0
  ranges : Nat := 0
  monikers : Nat := 0

/-- A document with its number moved. -/
def DocumentRow.moved (k : Offset) (d : DocumentRow) : DocumentRow :=
  { d with id := k.documents + d.id }

/-- A symbol with its number moved, and that of the symbol it stands for. -/
def SymbolRow.moved (k : Offset) (s : SymbolRow) : SymbolRow :=
  { s with id := k.symbols + s.id, aliasOf := s.aliasOf.map (k.symbols + ·) }

/-- An occurrence with its number moved, and those it refers to. -/
def RangeRow.moved (k : Offset) (r : RangeRow) : RangeRow :=
  { r with
    id := k.ranges + r.id, document := k.documents + r.document, symbol := k.symbols + r.symbol }

/-- An item with the numbers moved that it refers to. -/
def ItemRow.moved (k : Offset) (i : ItemRow) : ItemRow :=
  { i with symbol := k.symbols + i.symbol, range := k.ranges + i.range }

/-- A moniker with its number moved, and that of its symbol. -/
def MonikerRow.moved (k : Offset) (m : MonikerRow) : MonikerRow :=
  { m with id := k.monikers + m.id, symbol := k.symbols + m.symbol }

/-- A match with its symbol moved. -/
def MonikerMatch.moved (k : Offset) (m : MonikerMatch) : MonikerMatch :=
  { m with symbol := m.symbol.moved k }

namespace Database

/-- A database with the numbers of its rows moved. -/
def moved (k : Offset) (db : Database) : Database :=
  { db with
    documents := db.documents.map (·.moved k)
    symbols := db.symbols.map (·.moved k)
    ranges := db.ranges.map (·.moved k)
    items := db.items.map (·.moved k)
    monikers := db.monikers.map (·.moved k) }

/-! ### Not moving -/

end Database

@[simp] theorem SymbolRow.moved_zero (s : SymbolRow) : s.moved {} = s := by
  obtain ⟨_, _, _, _, _, _, _, _ | _⟩ := s <;> simp [SymbolRow.moved]

namespace Database

theorem moved_zero (db : Database) : db.moved {} = db := by
  have documents : (fun d : DocumentRow => d.moved {}) = id := by
    funext d
    simp [DocumentRow.moved]
  have symbols : (fun s : SymbolRow => s.moved {}) = id := funext SymbolRow.moved_zero
  have ranges : (fun r : RangeRow => r.moved {}) = id := by
    funext r
    simp [RangeRow.moved]
  have items : (fun i : ItemRow => i.moved {}) = id := by
    funext i
    simp [ItemRow.moved]
  have monikers : (fun m : MonikerRow => m.moved {}) = id := by
    funext m
    simp [MonikerRow.moved]
  simp only [moved, documents, symbols, ranges, items, monikers, Array.map_id]

variable (k : Offset) (db : Database)

/-! ## Rows by number -/

theorem symbol?_moved (id : RowId) :
    (db.moved k).symbol? (k.symbols + id) = (db.symbol? id).map (·.moved k) := by
  rw [symbol?, moved, Array.find?_map]
  refine congrArg _ (congrArg (db.symbols.find? ·) (funext fun s => ?_))
  simp [SymbolRow.moved]

theorem document?_moved (id : RowId) :
    (db.moved k).document? (k.documents + id) = (db.document? id).map (·.moved k) := by
  rw [document?, moved, Array.find?_map]
  refine congrArg _ (congrArg (db.documents.find? ·) (funext fun d => ?_))
  simp [DocumentRow.moved]

theorem range?_moved (id : RowId) :
    (db.moved k).range? (k.ranges + id) = (db.range? id).map (·.moved k) := by
  rw [range?, moved, Array.find?_map]
  refine congrArg _ (congrArg (db.ranges.find? ·) (funext fun r => ?_))
  simp [RangeRow.moved]

theorem place?_moved (r : RangeRow) : (db.moved k).place? (r.moved k) = db.place? r := by
  rw [place?, RangeRow.moved, document?_moved, place?, Option.map_map]
  rfl

/-! ## Answers -/

theorem covering_moved (project path : String) (p : Position) :
    (db.moved k).covering project path p = (db.covering project path p).map (·.moved k) := by
  simp only [covering, moved, Array.toList_map, List.filter_map]
  refine congrArg _ (List.filter_congr fun r _ => ?_)
  have documents : ((db.documents.map (·.moved k)).filter fun d =>
      d.project = project ∧ d.path = path).map (·.id) =
        ((db.documents.filter fun d => d.project = project ∧ d.path = path).map (·.id)).map
          (k.documents + ·) := by
    rw [Array.filter_map, Array.map_map, Array.map_map]
    rfl
  simp only [Function.comp_apply, documents]
  congr 1
  rw [Bool.eq_iff_iff, Array.contains_iff_mem, Array.contains_iff_mem, Array.mem_map]
  simp [RangeRow.moved]

theorem symbolAt?_moved (project path : String) (p : Position) :
    (db.moved k).symbolAt? project path p = (db.symbolAt? project path p).map (·.moved k) := by
  rw [symbolAt?, covering_moved, symbolAt?,
    ← List.map_mergeSort (r := fun a b => isTighter a.span b.span) fun _ _ _ _ => rfl,
    List.head?_map, Option.bind_map, Option.map_bind]
  exact congrArg _ (funext fun r => symbol?_moved k db r.symbol)

theorem itemPlaces_moved (symbol : RowId) (properties : List String) :
    (db.moved k).itemPlaces (k.symbols + symbol) properties = db.itemPlaces symbol properties := by
  unfold itemPlaces
  rw [show (db.moved k).items = db.items.map (·.moved k) from rfl, Array.toList_map,
    List.filterMap_map]
  refine congrArg (fun places : List Place => places.eraseDups.mergeSort isBefore)
    (List.filterMap_congr fun i _ => ?_)
  have place : ((db.moved k).range? (k.ranges + i.range)).bind (db.moved k).place? =
      (db.range? i.range).bind db.place? := by
    rw [range?_moved, Option.bind_map]
    exact congrArg _ (funext (place?_moved k db))
  rw [← place, Function.comp_apply]
  simp only [ItemRow.moved, Nat.add_left_cancel_iff]

theorem bind_aliasOf_moved (s : SymbolRow) :
    (s.moved k).aliasOf.bind (db.moved k).symbol? = (s.aliasOf.bind db.symbol?).map (·.moved k) := by
  cases link : s.aliasOf with
  | none => simp [SymbolRow.moved, link]
  | some target => simp [SymbolRow.moved, link, symbol?_moved]

theorem definitionsWithin_moved (hops : Nat) (s : SymbolRow) :
    (db.moved k).definitionsWithin hops (s.moved k) = db.definitionsWithin hops s := by
  induction hops generalizing s with
  | zero => rfl
  | succ hops ih =>
      rw [definitionsWithin, definitionsWithin, bind_aliasOf_moved]
      rw [show (s.moved k).id = k.symbols + s.id from rfl, itemPlaces_moved]
      cases s.aliasOf.bind db.symbol? with
      | none => rfl
      | some target => simp only [Option.map_some, ih]

theorem definitions_moved (s : SymbolRow) :
    (db.moved k).definitions (s.moved k) = db.definitions s :=
  definitionsWithin_moved k db aliasHops s

theorem references_moved (s : SymbolRow) (withDeclaration : Bool) :
    (db.moved k).references (s.moved k) withDeclaration = db.references s withDeclaration :=
  itemPlaces_moved k db s.id _

theorem hoverSource_moved (hops : Nat) (s : SymbolRow) :
    (db.moved k).hoverSource hops (s.moved k) = (db.hoverSource hops s).moved k := by
  induction hops generalizing s with
  | zero => rfl
  | succ hops ih =>
      rw [hoverSource, hoverSource, bind_aliasOf_moved]
      rw [show (s.moved k).hover = s.hover from rfl]
      split
      · rfl
      · cases s.aliasOf.bind db.symbol? with
        | none => rfl
        | some target => simp only [Option.map_some, ih]

theorem monikersOf_moved (s : SymbolRow) :
    (db.moved k).monikersOf (s.moved k) = db.monikersOf s := by
  unfold monikersOf
  rw [show (db.moved k).monikers = db.monikers.map (·.moved k) from rfl, Array.toList_map,
    List.filterMap_map]
  refine List.filterMap_congr fun m _ => ?_
  simp [MonikerRow.moved, SymbolRow.moved]

/-- The order in which the symbols with a moniker are found: by project, kind and number. -/
def monikerOrder (a b : MonikerRow) : Bool :=
  a.project < b.project || (a.project = b.project &&
    (a.moniker.kind.name < b.moniker.kind.name ||
      (a.moniker.kind.name = b.moniker.kind.name && a.symbol ≤ b.symbol)))

/-- What is found for a moniker. -/
def matchOf? (db : Database) (m : MonikerRow) : Option MonikerMatch :=
  (db.symbol? m.symbol).map fun symbol =>
    { moniker := m.moniker, symbol, definitions := db.definitions symbol }

theorem byMoniker_eq (identifier : String) : db.byMoniker identifier =
    ((db.monikers.toList.filter (·.moniker.identifier = identifier)).mergeSort
      monikerOrder).filterMap db.matchOf? := rfl

theorem monikerOrder_moved (a b : MonikerRow) :
    monikerOrder (a.moved k) (b.moved k) = monikerOrder a b := by
  rw [Bool.eq_iff_iff]
  simp only [monikerOrder, Bool.or_eq_true, Bool.and_eq_true, decide_eq_true_eq]
  simp only [MonikerRow.moved, Nat.add_le_add_iff_left]

theorem matchOf?_moved (m : MonikerRow) :
    (db.moved k).matchOf? (m.moved k) = (db.matchOf? m).map (·.moved k) := by
  simp only [matchOf?, MonikerRow.moved, symbol?_moved, Option.map_map]
  refine congrArg (fun f => (db.symbol? m.symbol).map f) (funext fun s => ?_)
  simp [MonikerMatch.moved, definitions_moved]

theorem byMoniker_moved (identifier : String) :
    (db.moved k).byMoniker identifier = (db.byMoniker identifier).map (·.moved k) := by
  simp only [byMoniker_eq]
  rw [show (db.moved k).monikers = db.monikers.map (·.moved k) from rfl, Array.toList_map,
    List.filter_map, ← List.map_mergeSort fun a _ b _ => (monikerOrder_moved k a b).symm,
    List.filterMap_map, List.map_filterMap]
  exact List.filterMap_congr fun m _ => matchOf?_moved k db m

theorem summary_moved (project : String) : (db.moved k).summary project = db.summary project := by
  simp only [summary, moved, Array.toList_map, List.filter_map, List.map_map, List.length_map]
  rfl

end Database
end SymbolAtlas.Store
