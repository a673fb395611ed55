/-
# SymbolAtlas.Proofs.Store.Placing -- what is written does not depend on what stands already

A writer numbers its rows from the last number on that was given, and looks at none but rows of
its project.  So a writer beside the rows of other projects (`GraphWriter.beside`) writes what a
writer without rows writes, numbered from elsewhere on, and refuses the same elements
(`emit_beside`).
-/
import SymbolAtlas.Proofs.Store.Owning

set_option autoImplicit false

namespace SymbolAtlas.Store

open SymbolAtlas.Graph (Id Element)

namespace Database

/-- The last numbers that were given. -/
def offset (db : Database) : Offset :=
  { documents := db.lastDocument, symbols := db.lastSymbol, ranges := db.lastRange
    monikers := db.lastMoniker }

/-- Rows behind those that stand already, numbered after them. -/
def beside (base own : Database) : Database :=
  { base with
    documents := base.documents ++ own.documents.map (·.moved base.offset)
    symbols := base.symbols ++ own.symbols.map (·.moved base.offset)
    ranges := base.ranges ++ own.ranges.map (·.moved base.offset)
    items := base.items ++ own.items.map (·.moved base.offset)
    monikers := base.monikers ++ own.monikers.map (·.moved base.offset)
    lastDocument := base.lastDocument + own.lastDocument
    lastSymbol := base.lastSymbol + own.lastSymbol
    lastRange := base.lastRange + own.lastRange
    lastMoniker := base.lastMoniker + own.lastMoniker }

end Database

namespace GraphWriter

/-- A writer that writes beside rows that stand already. -/
def beside (base : Database) (w : GraphWriter) : GraphWriter :=
  { w with
    database := base.beside w.database
    documents := w.documents.mapValues (base.lastDocument + ·)
    symbols := w.symbols.mapValues (base.lastSymbol + ·)
    ranges := w.ranges.mapValues (base.lastRange + ·)
    pending := w.pending.map (·.moved base.offset) }

/-- A writer begins beside the rows of the other projects. -/
theorem start_eq (db : Database) (p : Project) :
    start db p = (blank p.name).beside ((db.upsert p).clearGraph p.name) := by
  simp [start, blank, beside, Database.beside, Table.mapValues, Table.empty]

variable {base : Database} {w : GraphWriter}

/-! ## Steps of a writer -/

theorem symbols_beside (id : Id) :
    (w.beside base).symbols.get? id = (w.symbols.get? id).map (base.lastSymbol + ·) :=
  Table.get?_mapValues ..

theorem withDocument_beside (id : Id) (d : Graph.Document) :
    (w.withDocument id d).beside base = (w.beside base).withDocument id d := by
  simp only [beside, withDocument, Database.beside, Table.mapValues_insert, Array.map_push,
    Array.append_push]
  rfl

theorem withSymbol_beside (id : Id) (s : Graph.ResultSet) :
    (w.withSymbol id s).beside base = (w.beside base).withSymbol id s := by
  simp only [beside, withSymbol, Database.beside, Table.mapValues_insert, Array.map_push,
    Array.append_push]
  rfl

theorem withRange_beside (id : Id) (document symbol : RowId) (r : Graph.Range) :
    (w.withRange id document symbol r).beside base =
      (w.beside base).withRange id (base.lastDocument + document) (base.lastSymbol + symbol) r := by
  simp only [beside, withRange, Database.beside, Table.mapValues_insert, Array.map_push,
    Array.append_push]
  rfl

theorem withMoniker_beside (symbol : RowId) (m : Moniker) :
    (w.withMoniker symbol m).beside base =
      (w.beside base).withMoniker (base.lastSymbol + symbol) m := by
  simp only [beside, withMoniker, Database.beside, Array.map_push, Array.append_push]
  rfl

/-- A change of a symbol that was written does not touch what stood already. -/
theorem modifySymbol_beside (sound : base.Sound) {symbol : RowId} (new : 0 < symbol)
    (f f' : SymbolRow → SymbolRow)
    (moved : ∀ s : SymbolRow, (f s).moved base.offset = f' (s.moved base.offset)) (own : Database) :
    base.beside (own.modifySymbol symbol f) =
      (base.beside own).modifySymbol (base.lastSymbol + symbol) f' := by
  have old : base.symbols.map (fun s => if s.id = base.lastSymbol + symbol then f' s else s) =
      base.symbols := by
    refine (Array.map_congr_left fun s member => if_neg fun same => ?_).trans (Array.map_id' _)
    have given : s.id ≤ base.lastSymbol :=
      sound.symbols.given s.id (List.mem_map_of_mem (Array.mem_toList_iff.2 member))
    exact Nat.ne_of_lt (Nat.lt_of_le_of_lt given (Nat.lt_add_of_pos_right new)) same
  simp only [Database.beside, Database.modifySymbol, Array.map_append, old, Array.map_map]
  congr 3
  funext s
  have number : (s.moved base.offset).id = base.lastSymbol + symbol ↔ s.id = symbol :=
    Nat.add_left_cancel_iff
  by_cases here : s.id = symbol
  · simp only [Function.comp_apply, if_pos here, if_pos (number.2 here), moved]
  · simp only [Function.comp_apply, if_neg here, if_neg (mt number.1 here)]

/-! ## Items -/

/-- No item that stood already is one of those that are written. -/
theorem standing_beside (sound : base.Sound) {item : ItemRow} (new : 0 < item.symbol)
    (rows : Array ItemRow) :
    standing (base.items ++ rows.map (·.moved base.offset)) (item.moved base.offset) =
      base.items ++ (standing rows item).map (·.moved base.offset) := by
  have old : base.items.any (fun r => r.symbol = (item.moved base.offset).symbol ∧
      r.range = (item.moved base.offset).range ∧ r.property = item.property) = false := by
    rw [Array.any_eq_false']
    intro i member same
    have given := (sound.items i member).1
    have moved : i.symbol = base.lastSymbol + item.symbol := (of_decide_eq_true same).1
    exact Nat.not_le_of_lt (Nat.lt_add_of_pos_right new) (moved ▸ given)
  have own : (rows.map (·.moved base.offset)).any (fun r =>
      r.symbol = (item.moved base.offset).symbol ∧ r.range = (item.moved base.offset).range ∧
        r.property = item.property) =
      rows.any fun r => r.symbol = item.symbol ∧ r.range = item.range ∧
        r.property = item.property := by
    rw [Array.any_map]
    refine congrArg (fun test => rows.any test) (funext fun r => ?_)
    simp [ItemRow.moved]
  unfold standing
  rw [Array.any_append, show (item.moved base.offset).property = item.property from rfl, old, own,
    Bool.false_or]
  split
  · rfl
  · rw [Array.map_push, Array.append_push]

theorem flush_beside (sound : base.Sound) (new : ∀ i ∈ w.pending, 0 < i.symbol) :
    w.flush.beside base = (w.beside base).flush := by
  have items : ∀ (pending : List ItemRow) (rows : Array ItemRow), (∀ i ∈ pending, 0 < i.symbol) →
      (pending.map (·.moved base.offset)).foldl standing
          (base.items ++ rows.map (·.moved base.offset)) =
        base.items ++ (pending.foldl standing rows).map (·.moved base.offset) := by
    intro pending
    induction pending with
    | nil => exact fun rows _ => rfl
    | cons item pending ih =>
        intro rows new
        obtain ⟨first, rest⟩ := List.forall_mem_cons.1 new
        rw [List.map_cons, List.foldl_cons, standing_beside sound first, ih _ rest, List.foldl_cons]
  have written := items w.pending.toList w.database.items fun i waits =>
    new i (Array.mem_toList_iff.1 waits)
  rw [flush_eq, flush_eq]
  simp only [beside, Database.beside, Array.toList_map, written, Array.map_empty]

theorem withItem_beside (sound : base.Sound) (new : ∀ i ∈ w.pending, 0 < i.symbol)
    {symbol : RowId} (owner : 0 < symbol) (property : String) (range : RowId) :
    (withItem symbol property w range).beside base =
      withItem (base.lastSymbol + symbol) property (w.beside base) (base.lastRange + range) := by
  let item : ItemRow := ⟨w.project, base.lastSymbol + symbol, base.lastRange + range, property⟩
  have collected : beside base
      { w with pending := w.pending.push ⟨w.project, symbol, range, property⟩ } =
        { w.beside base with pending := (w.beside base).pending.push item } := by
    simp only [beside, Array.map_push]
    rfl
  have size : (w.beside base).pending.size = w.pending.size := by simp [beside]
  simp only [withItem, Array.size_push, size]
  split
  · rw [flush_beside sound, collected]
    · rfl
    · intro i waits
      rcases Array.mem_push.1 waits with old | rfl
      · exact new i old
      · exact owner
  · exact collected

theorem pending_withItem (new : ∀ i ∈ w.pending, 0 < i.symbol) {symbol : RowId} (owner : 0 < symbol)
    (property : String) (range : RowId) :
    ∀ i ∈ (withItem symbol property w range).pending, 0 < i.symbol := by
  simp only [withItem]
  split
  · simp [flush]
  · intro i waits
    rcases Array.mem_push.1 waits with old | rfl
    · exact new i old
    · exact owner

theorem effect_addItems_beside (sound : base.Sound) (new : ∀ i ∈ w.pending, 0 < i.symbol)
    {symbol : RowId} (owner : 0 < symbol) (property : String) (ids : List Id) :
    effect (addItems (base.lastSymbol + symbol) property ids) (w.beside base) =
      ((effect (addItems symbol property ids) w).1,
        (effect (addItems symbol property ids) w).2.beside base) := by
  induction ids generalizing w with
  | nil => rfl
  | cons id ids ih =>
      rw [addItems, addItems, effect_get_bind, effect_get_bind]
      have known : (w.beside base).ranges.get? id =
          (w.ranges.get? id).map (base.lastRange + ·) := Table.get?_mapValues ..
      simp only [known]
      cases w.ranges.get? id with
      | none => rfl
      | some range =>
          have later := ih (w := withItem symbol property w range)
            (pending_withItem new owner property range)
          rw [withItem_beside sound new owner] at later
          exact later

/-! ## Elements -/

/-- A document is refused beside the rows of other projects if it is refused without them. -/
theorem clash_beside (vacant : ∀ d ∈ base.documents, d.project ≠ w.project) (uri : String) :
    ((w.beside base).database.documents.any fun row => row.project = w.project ∧ row.uri = uri) =
      w.database.documents.any fun row => row.project = w.project ∧ row.uri = uri := by
  have old : (base.documents.any fun row => row.project = w.project ∧ row.uri = uri) = false := by
    rw [Array.any_eq_false']
    exact fun row member same => vacant row member (of_decide_eq_true same).1
  rw [beside, Database.beside, Array.any_append, old, Bool.false_or, Array.any_map]
  rfl

/-- **Beside the rows of other projects an element comes to what it comes to without them.** -/
theorem effect_write_beside (sound : base.Sound)
    (vacant : ∀ d ∈ base.documents, d.project ≠ w.project) (owning : w.Owning) (e : Element) :
    effect (write e) (w.beside base) =
      ((effect (write e) w).1, (effect (write e) w).2.beside base) := by
  obtain ⟨id, body⟩ := e
  have new : ∀ i ∈ w.pending, 0 < i.symbol := fun i waits => (owning.pending i waits).2.1
  cases body with
  | document d =>
      have clash := clash_beside vacant d.uri
      simp only [effect_write_document, show (w.beside base).project = w.project from rfl, clash]
      split
      · rfl
      · exact Prod.ext rfl (withDocument_beside id d).symm
  | resultSet s => exact Prod.ext rfl (withSymbol_beside id s).symm
  | range r =>
      have known : (w.beside base).documents.get? r.document =
          (w.documents.get? r.document).map (base.lastDocument + ·) := Table.get?_mapValues ..
      simp only [effect_write_range, known, symbols_beside]
      cases w.documents.get? r.document with
      | none => rfl
      | some document =>
          cases w.symbols.get? r.resultSet with
          | none => rfl
          | some symbol => exact Prod.ext rfl (withRange_beside id document symbol r).symm
  | moniker m => rfl
  | hover contents => rfl
  | monikerEdge outV inV =>
      simp only [effect_write_monikerEdge, symbols_beside,
        show (w.beside base).monikers = w.monikers from rfl]
      cases w.monikers.get? inV with
      | none => rfl
      | some moniker =>
          cases w.symbols.get? outV with
          | none => rfl
          | some symbol => exact Prod.ext rfl (withMoniker_beside symbol moniker).symm
  | hoverEdge outV inV =>
      simp only [effect_write_hoverEdge, symbols_beside]
      cases owner : w.symbols.get? outV with
      | none => rfl
      | some symbol =>
          have moved := modifySymbol_beside sound (owning.symbols outV symbol owner).1
            (fun s => { s with hover := (w.hovers.get? inV).getD "" })
            (fun s => { s with hover := (w.hovers.get? inV).getD "" })
            (fun _ => rfl) w.database
          refine Prod.ext rfl (Eq.symm ?_)
          exact congrArg (fun database => { w.beside base with database }) moved
  | next outV inV =>
      simp only [effect_write_next, symbols_beside]
      cases owner : w.symbols.get? outV with
      | none => rfl
      | some origin =>
          cases w.symbols.get? inV with
          | none => rfl
          | some target =>
              have moved := modifySymbol_beside sound (owning.symbols outV origin owner).1
                (fun s => { s with aliasOf := some target })
                (fun s => { s with aliasOf := some (base.lastSymbol + target) })
                (fun _ => rfl) w.database
              refine Prod.ext rfl (Eq.symm ?_)
              exact congrArg (fun database => { w.beside base with database }) moved
  | item i =>
      simp only [effect_write_item, symbols_beside]
      cases owner : w.symbols.get? i.outV with
      | none => rfl
      | some symbol =>
          exact effect_addItems_beside sound new (owning.symbols _ _ owner).1 i.property.name i.inVs
  | contains outV inVs =>
      have known : (w.beside base).documents.contains outV = w.documents.contains outV := by
        simp [Table.contains, beside]
      simp only [effect_write_contains, known]
      split
      · rfl
      · exact Prod.ext rfl (flush_beside sound new).symm
  | metadata | project | foreign => rfl

theorem emit_beside (sound : base.Sound) (vacant : ∀ d ∈ base.documents, d.project ≠ w.project)
    (owning : w.Owning) (e : Element) :
    (w.beside base).emit e = ((w.emit e).1, (w.emit e).2.beside base) := by
  have same : (write e).run (w.beside base) =
      (((write e).run w).1, ((write e).run w).2.beside base) :=
    effect_write_beside sound vacant owning e
  unfold emit
  rw [same]
  rcases (write e).run w with ⟨_ | ⟨⟨⟩⟩, w'⟩ <;> rfl

theorem sink_beside (sound : base.Sound) (vacant : ∀ d ∈ base.documents, d.project ≠ w.project)
    (owning : w.Owning) (e : Element) :
    sink e (w.beside base) = (sink e w).map (·.beside base) := by
  unfold sink
  rw [emit_beside sound vacant owning]
  rcases w.emit e with ⟨_ | refusal, w'⟩ <;> rfl

theorem emits_beside (sound : base.Sound) (vacant : ∀ d ∈ base.documents, d.project ≠ w.project)
    (owning : w.Owning) (elements : List Element) :
    elements.foldl (fun w e => (w.emit e).2) (w.beside base) =
      (elements.foldl (fun w e => (w.emit e).2) w).beside base := by
  induction elements generalizing w with
  | nil => rfl
  | cons e elements ih =>
      rw [List.foldl_cons, List.foldl_cons, emit_beside sound vacant owning]
      exact ih (by rwa [project_emit]) (owning.emit e)

theorem project_emits (w : GraphWriter) (elements : List Element) :
    (elements.foldl (fun w e => (w.emit e).2) w).project = w.project := by
  induction elements generalizing w with
  | nil => rfl
  | cons e elements ih => exact (ih _).trans (project_emit w e)

end GraphWriter

/-! ## The rows of a project -/

section Rows

variable {ρ : Type} {standing new : Array ρ} {keep : ρ → Bool} {f : ρ → ρ}

theorem filter_beside_of_none (gone : ∀ row ∈ new, keep (f row) = false) :
    (standing ++ new.map f).filter keep = standing.filter keep := by
  have none_ : (new.map f).filter keep = #[] := Array.filter_eq_empty_iff.2 fun row member => by
    obtain ⟨old, inside, rfl⟩ := Array.mem_map.1 member
    simp [gone old inside]
  rw [Array.filter_append Array.size_append, none_, Array.append_empty]

theorem filter_beside_of_all (vacant : ∀ row ∈ standing, keep row = false)
    (own : ∀ row ∈ new, keep row = true ∧ keep (f row) = true) :
    (standing ++ new.map f).filter keep = (new.filter keep).map f := by
  have none_ : standing.filter keep = #[] := Array.filter_eq_empty_iff.2 fun row member => by
    simp [vacant row member]
  have all : (new.map f).filter keep = new.map f := Array.filter_eq_self.2 fun row member => by
    obtain ⟨old, inside, rfl⟩ := Array.mem_map.1 member
    exact (own old inside).2
  rw [Array.filter_append Array.size_append, none_, Array.empty_append, all,
    Array.filter_eq_self.2 fun row member => (own row member).1]

end Rows

namespace Database

variable {base own db : Database} {p q : String}

/-- What is written for a project leaves the graph of every other. -/
theorem graphOf_beside_of_ne (only : own.Only p) (other : q ≠ p) :
    (base.beside own).graphOf q = base.graphOf q := by
  have gone {project : String} (home : project = p) : decide (project = q) = false :=
    decide_eq_false fun same => other (same.symm.trans home)
  unfold graphOf
  congr 1
  · exact filter_beside_of_none fun d member => gone (only.documents d member)
  · exact filter_beside_of_none fun s member => gone (only.symbols s member)
  · exact filter_beside_of_none fun r member => gone (only.ranges r member)
  · exact filter_beside_of_none fun i member => gone (only.items i member)
  · exact filter_beside_of_none fun m member => gone (only.monikers m member)

/-- No row is one of a project's. -/
structure Vacant (db : Database) (project : String) : Prop where
  documents : ∀ d ∈ db.documents, d.project ≠ project
  symbols : ∀ s ∈ db.symbols, s.project ≠ project
  ranges : ∀ r ∈ db.ranges, r.project ≠ project
  items : ∀ i ∈ db.items, i.project ≠ project
  monikers : ∀ m ∈ db.monikers, m.project ≠ project

/-- The graph of a project that had none is what was written for it. -/
theorem graphOf_beside_own (vacant : base.Vacant p) (only : own.Only p) :
    (base.beside own).graphOf p = (own.graphOf p).moved base.offset := by
  unfold graphOf moved
  congr 1
  · exact filter_beside_of_all (fun d member => decide_eq_false (vacant.documents d member))
      fun d member => ⟨decide_eq_true (only.documents d member),
        decide_eq_true (only.documents d member)⟩
  · exact filter_beside_of_all (fun s member => decide_eq_false (vacant.symbols s member))
      fun s member => ⟨decide_eq_true (only.symbols s member),
        decide_eq_true (only.symbols s member)⟩
  · exact filter_beside_of_all (fun r member => decide_eq_false (vacant.ranges r member))
      fun r member => ⟨decide_eq_true (only.ranges r member),
        decide_eq_true (only.ranges r member)⟩
  · exact filter_beside_of_all (fun i member => decide_eq_false (vacant.items i member))
      fun i member => ⟨decide_eq_true (only.items i member),
        decide_eq_true (only.items i member)⟩
  · exact filter_beside_of_all (fun m member => decide_eq_false (vacant.monikers m member))
      fun m member => ⟨decide_eq_true (only.monikers m member),
        decide_eq_true (only.monikers m member)⟩

/-! ## References among rows -/

theorem keeps_beside (base own : Database) : base.Keeps (base.beside own) :=
  .of_subset (fun _ old => Array.mem_append_left _ old) (fun _ old => Array.mem_append_left _ old)
    fun _ old => Array.mem_append_left _ old

variable {id : RowId}

theorem HasDocument.beside (has : own.HasDocument p id) :
    (base.beside own).HasDocument p (base.lastDocument + id) := by
  obtain ⟨d, member, rfl, home⟩ := has
  exact ⟨_, Array.mem_append_right _ (Array.mem_map_of_mem member), rfl, home⟩

theorem HasSymbol.beside (has : own.HasSymbol p id) :
    (base.beside own).HasSymbol p (base.lastSymbol + id) := by
  obtain ⟨s, member, rfl, home⟩ := has
  exact ⟨_, Array.mem_append_right _ (Array.mem_map_of_mem member), rfl, home⟩

theorem HasRange.beside (has : own.HasRange p id) :
    (base.beside own).HasRange p (base.lastRange + id) := by
  obtain ⟨r, member, rfl, home⟩ := has
  exact ⟨_, Array.mem_append_right _ (Array.mem_map_of_mem member), rfl, home⟩

theorem Closed.beside (closed : base.Closed) (inner : own.Closed) : (base.beside own).Closed := by
  refine closed.keep (keeps_beside base own) (fun r member => ?_) (fun i member => ?_)
    (fun m member => ?_) fun s member target link => ?_
  · refine (Array.mem_append.1 member).imp_right fun new => ?_
    obtain ⟨row, written, rfl⟩ := Array.mem_map.1 new
    exact ⟨(inner.ranges row written).1.beside, (inner.ranges row written).2.beside⟩
  · refine (Array.mem_append.1 member).imp_right fun new => ?_
    obtain ⟨row, written, rfl⟩ := Array.mem_map.1 new
    exact ⟨(inner.items row written).1.beside, (inner.items row written).2.beside⟩
  · refine (Array.mem_append.1 member).imp_right fun new => ?_
    obtain ⟨row, written, rfl⟩ := Array.mem_map.1 new
    exact (inner.monikers row written).beside
  · refine (Array.mem_append.1 member).imp (fun old => ⟨s, old, rfl, link⟩) fun new => ?_
    obtain ⟨row, written, rfl⟩ := Array.mem_map.1 new
    obtain ⟨inside, linked, rfl⟩ := Option.map_eq_some_iff.1 link
    exact (inner.aliases row written inside linked).beside

/-! ## Clearing a graph -/

theorem vacant_clearGraph (db : Database) (p : String) : (db.clearGraph p).Vacant p where
  documents d member := of_decide_eq_true (Array.mem_filter.1 member).2
  symbols s member := by
    obtain ⟨old, kept, rfl⟩ := Array.mem_map.1 member
    exact of_decide_eq_true (Array.mem_filter.1 kept).2
  ranges r member := of_decide_eq_true (Array.mem_filter.1 member).2
  items i member := of_decide_eq_true (Array.mem_filter.1 member).2
  monikers m member := of_decide_eq_true (Array.mem_filter.1 member).2

/-- **Clearing a graph cuts no link**: none leads into it from outside. -/
theorem Closed.symbols_clearGraph (closed : db.Closed) (sound : db.Sound) (p : String) :
    (db.clearGraph p).symbols = db.symbols.filter (·.project ≠ p) := by
  refine (Array.map_congr_left fun s member => ?_).trans (Array.map_id' _)
  obtain ⟨here, other⟩ := Array.mem_filter.1 member
  have stays : s.aliasOf.filter (fun target =>
      !((db.symbols.filter (·.project = p)).map (·.id)).contains target) = s.aliasOf := by
    cases link : s.aliasOf with
    | none => rfl
    | some target =>
        refine Option.filter_eq_some_iff.2 ⟨rfl, ?_⟩
        rw [Bool.not_eq_true', ← Bool.not_eq_true, Array.contains_iff_mem]
        intro gone
        obtain ⟨t, inside, rfl⟩ := Array.mem_map.1 gone
        obtain ⟨member', own⟩ := Array.mem_filter.1 inside
        have home := sound.symbol_project (closed.aliases s here t.id link) t member' rfl
        exact of_decide_eq_true other (home.symm.trans (of_decide_eq_true own))
  rw [stays]

theorem Closed.graphOf_clearGraph (closed : db.Closed) (sound : db.Sound) (other : q ≠ p) :
    (db.clearGraph p).graphOf q = db.graphOf q := by
  have both {ρ : Type} (rows : Array ρ) (project : ρ → String) :
      (rows.filter (project · ≠ p)).filter (project · = q) = rows.filter (project · = q) := by
    rw [Array.filter_filter]
    refine congrArg (fun keep => rows.filter keep) (funext fun row => ?_)
    by_cases own : project row = q <;> simp [own, other]
  unfold graphOf
  congr 1
  · exact both db.documents (·.project)
  · rw [closed.symbols_clearGraph sound]
    exact both db.symbols (·.project)
  · exact both db.ranges (·.project)
  · exact both db.items (·.project)
  · exact both db.monikers (·.project)

theorem Closed.clearGraph (closed : db.Closed) (sound : db.Sound) (p : String) :
    (db.clearGraph p).Closed := by
  have symbol {q : String} {id : RowId} (other : q ≠ p) (has : db.HasSymbol q id) :
      (db.clearGraph p).HasSymbol q id := by
    obtain ⟨s, member, rfl, rfl⟩ := has
    refine ⟨s, ?_, rfl, rfl⟩
    rw [closed.symbols_clearGraph sound]
    exact Array.mem_filter.2 ⟨member, decide_eq_true other⟩
  refine ⟨fun r member => ?_, fun i member => ?_, fun m member => ?_, fun s member target link => ?_⟩
  · obtain ⟨old, kept⟩ := Array.mem_filter.1 member
    have other : r.project ≠ p := of_decide_eq_true kept
    obtain ⟨⟨d, here, number, home⟩, owner⟩ := closed.ranges r old
    exact ⟨⟨d, Array.mem_filter.2 ⟨here, decide_eq_true (home ▸ other)⟩, number, home⟩,
      symbol other owner⟩
  · obtain ⟨old, kept⟩ := Array.mem_filter.1 member
    have other : i.project ≠ p := of_decide_eq_true kept
    obtain ⟨owner, ⟨r, here, number, home⟩⟩ := closed.items i old
    exact ⟨symbol other owner,
      ⟨r, Array.mem_filter.2 ⟨here, decide_eq_true (home ▸ other)⟩, number, home⟩⟩
  · obtain ⟨old, kept⟩ := Array.mem_filter.1 member
    exact symbol (of_decide_eq_true kept) (closed.monikers m old)
  · rw [closed.symbols_clearGraph sound] at member
    obtain ⟨old, kept⟩ := Array.mem_filter.1 member
    exact symbol (of_decide_eq_true kept) (closed.aliases s old target link)

end Database
end SymbolAtlas.Store
