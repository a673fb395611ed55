/-
# SymbolAtlas.Proofs.Store.Batching -- items are written in batches, and nobody can tell

A writer collects items and writes them when a batch is full, when the edge from the project to
its documents comes, and when it is closed.  What stands or waits (`settled`) is at any time what
it would be had each item been written on its own (`Taking.settled`), so when the writer is closed
the items of its project are those that the item edges list, each one time (`items_batched`).

Between two elements fewer items wait than a batch holds (`Taking.within`).  So a batch binds 996
values at most, and what would be done with more than 999 makes no difference
(`effect_writeBy`).
-/
import SymbolAtlas.Proofs.Store.Isolation

set_option autoImplicit false

namespace SymbolAtlas

/-- Elements are taken one part after the other. -/
theorem Graph.takes_append {ω : Type} {sink : Graph.Sink ω} {output output'' : ω}
    {elements more : List Graph.Element} :
    sink.Takes output (elements ++ more) output'' ↔
      ∃ output', sink.Takes output elements output' ∧ sink.Takes output' more output'' := by
  unfold Graph.Sink.Takes
  rw [List.foldlM_append]
  cases elements.foldlM (fun output e => sink e output) output with
  | error reason => simp [bind, Except.bind]
  | ok output' => simp [bind, Except.bind]

namespace Store

open SymbolAtlas.Graph (Id Element)

namespace GraphWriter

variable {w w' base : GraphWriter} {e : Element} {elements : List Element}

/-! ## Streams of elements -/

/-- **What one element keeps, a stream of them keeps.** -/
theorem takes_induction {motive : ∀ elements w, sink.Takes base elements w → Prop}
    (nil : motive [] base Graph.takes_nil)
    (snoc : ∀ {elements u e v} (before : sink.Takes base elements u)
      (last : sink e u = .ok { v with written := v.written + 1 }), Taking u e v →
      motive elements u before → motive (elements ++ [e]) { v with written := v.written + 1 }
        (Graph.takes_snoc.2 ⟨u, before, last⟩))
    (elements : List Element) (w : GraphWriter) (taken : sink.Takes base elements w) :
    motive elements w taken := by
  induction elements using List.reverseRecOn generalizing w with
  | nil =>
      obtain rfl : base = w := Except.ok.inj taken
      exact nil
  | append_singleton elements e ih =>
      obtain ⟨u, before, last⟩ := Graph.takes_snoc.1 taken
      obtain ⟨v, taking, rfl⟩ := taking_of_sink last
      exact snoc before last taking (ih u before)

/-! ## What is listed -/

/-- The rows that an element lists: for an item edge one for each of its ranges. -/
def listedRows (w : GraphWriter) (e : Element) : List ItemRow :=
  match e.body with
  | .item i =>
      match w.symbols.get? i.outV with
      | some symbol => (i.inVs.filterMap w.ranges.get?).map fun range =>
          { project := w.project, symbol, range, property := i.property.name }
      | none => []
  | _ => []

/-- The rows that elements list, each edge by what the writer knows when it comes. -/
def listings : GraphWriter → List Element → List ItemRow
  | _, [] => []
  | w, e :: rest => w.listedRows e ++ listings (w.emit e).2 rest

theorem listings_append (w : GraphWriter) (elements more : List Element) :
    listings w (elements ++ more) = listings w elements ++
      listings (elements.foldl (fun w e => (w.emit e).2) w) more := by
  induction elements generalizing w with
  | nil => rfl
  | cons e elements ih => simp only [List.cons_append, listings, ih, List.append_assoc,
      List.foldl_cons]

theorem listedRows_of_plain (plain : Plain e.body) : w.listedRows e = [] := by
  unfold listedRows
  split
  · rename_i item
    rw [item] at plain
    exact plain.elim
  · rfl

theorem listedRows_item {id : Id} {i : Graph.Item} {symbol : RowId} {rows : List RowId}
    (owner : w.symbols.get? i.outV = some symbol)
    (listed : List.Forall₂ (fun id row => w.ranges.get? id = some row) i.inVs rows) :
    w.listedRows ⟨id, .item i⟩ = rows.map fun range =>
      { project := w.project, symbol, range, property := i.property.name } := by
  have known {ids : List Id} (listed : List.Forall₂ (fun id row => w.ranges.get? id = some row)
      ids rows) : ids.filterMap w.ranges.get? = rows := by
    clear * - listed
    induction listed with
    | nil => rfl
    | cons here _ ih => rw [List.filterMap_cons, here, ih]
  simp only [listedRows, owner, known listed]

/-! ## One after the other -/

/-- The items that stand once what waits is written. -/
def settled (w : GraphWriter) : Array ItemRow := w.flush.database.items

theorem settled_eq (w : GraphWriter) :
    w.settled = w.pending.toList.foldl standing w.database.items := by
  rw [settled, flush_eq]

theorem settled_congr (items : w'.database.items = w.database.items)
    (pending : w'.pending = w.pending) : w'.settled = w.settled := by
  rw [settled_eq, settled_eq, items, pending]

/-- **Nothing waits once all is written**, and to write it again adds nothing. -/
theorem flush_flush (w : GraphWriter) : w.flush.flush = w.flush := by
  rw [flush_eq w, flush_eq]
  rfl

theorem settled_flush (w : GraphWriter) : w.flush.settled = w.settled := by
  rw [settled, flush_flush, settled]

/-- An item that is collected, whether a batch is full with it or not, will stand as if it were
written at once. -/
theorem settled_withItem (symbol : RowId) (property : String) (w : GraphWriter) (range : RowId) :
    (withItem symbol property w range).settled =
      standing w.settled { project := w.project, symbol, range, property } := by
  have collected : settled
      { w with pending := w.pending.push { project := w.project, symbol, range, property } } =
        standing w.settled { project := w.project, symbol, range, property } := by
    rw [settled_eq, settled_eq, Array.toList_push, List.foldl_append]
    rfl
  simp only [withItem]
  split
  · rw [settled_flush, collected]
  · exact collected

theorem settled_withItems (symbol : RowId) (property : String) (w : GraphWriter)
    (rows : List RowId) :
    (rows.foldl (withItem symbol property) w).settled =
      (rows.map fun range => { project := w.project, symbol, range, property }).foldl
        standing w.settled := by
  induction rows generalizing w with
  | nil => rfl
  | cons row rows ih =>
      obtain ⟨_, _, shape⟩ := withItem_eq symbol property w row
      have own : (withItem symbol property w row).project = w.project := by rw [shape]
      rw [List.foldl_cons, ih, settled_withItem, own, List.map_cons, List.foldl_cons]

/-- **What an element leaves to stand** is what each of its rows, written on its own, adds. -/
theorem Taking.settled (taking : Taking w e w') :
    w'.settled = (w.listedRows e).foldl standing w.settled := by
  cases taking with
  | document | symbol | range => exact settled_congr rfl rfl
  | item owner listed => rw [listedRows_item owner listed, settled_withItems]
  | touched plain | labelled plain | aside plain =>
      rw [listedRows_of_plain plain]
      exact settled_congr rfl rfl
  | flushed plain =>
      rw [listedRows_of_plain plain]
      exact settled_flush w

/-- **What elements leave to stand**, however their items fell into batches. -/
theorem settled_of_takes (taken : sink.Takes base elements w) :
    w.settled = (listings base elements).foldl standing base.settled := by
  induction elements, w, taken using takes_induction with
  | nil => rfl
  | @snoc elements u e v before last taking ih =>
      have same : settled { v with written := v.written + 1 } = v.settled := settled_congr rfl rfl
      rw [same, taking.settled, ih, listings_append, emits_of_takes before, List.foldl_append]
      simp only [listings, List.append_nil]

/-! ## Each one time -/

/-- What tells items apart. -/
def itemKey (i : ItemRow) : RowId × RowId × String := (i.symbol, i.range, i.property)

theorem standing_eq (rows : Array ItemRow) (item : ItemRow) :
    standing rows item = if itemKey item ∈ rows.map itemKey then rows else rows.push item := by
  have same : (rows.any fun r => r.symbol = item.symbol ∧ r.range = item.range ∧
      r.property = item.property) = decide (itemKey item ∈ rows.map itemKey) := by
    rw [Bool.eq_iff_iff, Array.any_eq_true', decide_eq_true_eq, Array.mem_map]
    refine exists_congr fun r => and_congr_right fun _ => ?_
    rw [decide_eq_true_eq, itemKey, itemKey, Prod.mk.injEq, Prod.mk.injEq]
  unfold standing
  simp only [same, decide_eq_true_eq]

theorem nodup_standing {rows : Array ItemRow} {keep : ItemRow → Bool}
    (once : ((rows.filter keep).toList.map itemKey).Nodup) (item : ItemRow) :
    (((standing rows item).filter keep).toList.map itemKey).Nodup := by
  rw [standing_eq]
  split
  · exact once
  · rename_i new
    rw [Array.filter_push]
    split
    · rw [Array.toList_push, List.map_append, List.nodup_append]
      refine ⟨once, List.nodup_singleton _, fun key old other here => ?_⟩
      rintro rfl
      obtain ⟨r, member, same⟩ := List.mem_map.1 old
      obtain rfl := List.mem_singleton.1 here
      exact new (Array.mem_map.2 ⟨r, (Array.mem_filter.1 (Array.mem_toList_iff.1 member)).1, same⟩)
    · exact once

/-- **No item stands twice.** -/
theorem nodup_foldl_standing {rows : Array ItemRow} {keep : ItemRow → Bool}
    (once : ((rows.filter keep).toList.map itemKey).Nodup) (items : List ItemRow) :
    (((items.foldl standing rows).filter keep).toList.map itemKey).Nodup := by
  induction items generalizing rows with
  | nil => exact once
  | cons item items ih => exact ih (nodup_standing once item)

/-- A writer knows no symbol that stood before it began. -/
structure Fresh (base w : GraphWriter) : Prop where
  project : w.project = base.project
  later : base.database.lastSymbol ≤ w.database.lastSymbol
  symbols : w.symbols.All fun _ row => base.database.lastSymbol < row

theorem Fresh.of_eq (h : Fresh base w) (project : w'.project = w.project)
    (last : w'.database.lastSymbol = w.database.lastSymbol) (symbols : w'.symbols = w.symbols) :
    Fresh base w' :=
  ⟨project.trans h.project, last ▸ h.later, symbols ▸ h.symbols⟩

theorem Fresh.taking (h : Fresh base w) (taking : Taking w e w') : Fresh base w' := by
  cases taking with
  | document | range | touched | labelled | aside => exact h.of_eq rfl rfl rfl
  | symbol =>
      exact ⟨h.project, Nat.le_succ_of_le h.later, h.symbols.insert (Nat.lt_succ_of_le h.later)⟩
  | @item _ i symbol rows =>
      obtain ⟨_, _, shape⟩ := withItems_eq symbol i.property.name w rows
      rw [shape]
      exact h.of_eq rfl rfl rfl
  | flushed =>
      rw [flush_eq]
      exact h.of_eq rfl rfl rfl

theorem Fresh.listed (h : Fresh base w) {row : ItemRow} (listed : row ∈ w.listedRows e) :
    row.project = base.project ∧ base.database.lastSymbol < row.symbol := by
  unfold listedRows at listed
  split at listed
  · split at listed
    · rename_i owner
      obtain ⟨range, -, rfl⟩ := List.mem_map.1 listed
      exact ⟨h.project, h.symbols _ _ owner⟩
    · cases listed
  · cases listed

theorem fresh_of_takes (begun : Fresh base base) (taken : sink.Takes base elements w) :
    Fresh base w ∧ ∀ row ∈ listings base elements,
      row.project = base.project ∧ base.database.lastSymbol < row.symbol := by
  induction elements, w, taken using takes_induction with
  | nil => exact ⟨begun, fun row listed => nomatch listed⟩
  | @snoc elements u e v before last taking ih =>
      obtain ⟨fresh, old⟩ := ih
      refine ⟨(fresh.taking taking).of_eq rfl rfl rfl, fun row listed => ?_⟩
      rw [listings_append, emits_of_takes before] at listed
      simp only [listings, List.append_nil] at listed
      exact (List.mem_append.1 listed).elim (old row) fresh.listed

/-- **What an accepted item edge lists is known**, all of it. -/
theorem listed_of_takes {before after : List Element} {id : Id} {i : Graph.Item}
    (taken : sink.Takes base (before ++ ⟨id, .item i⟩ :: after) w) :
    ∃ u symbol, sink.Takes base before u ∧ u.symbols.get? i.outV = some symbol ∧
      ∀ inV ∈ i.inVs, ∃ range, u.ranges.get? inV = some range ∧
        { project := u.project, symbol, range, property := i.property.name } ∈
          listings base (before ++ ⟨id, .item i⟩ :: after) := by
  obtain ⟨v, taken, -⟩ : ∃ v, sink.Takes base (before ++ [⟨id, .item i⟩]) v ∧
      sink.Takes v after w := by
    rw [List.append_cons] at taken
    exact Graph.takes_append.1 taken
  obtain ⟨u, first, last⟩ := Graph.takes_snoc.1 taken
  obtain ⟨_, taking, -⟩ := taking_of_sink last
  cases taking with
  | @item _ _ symbol rows owner listed =>
      refine ⟨u, symbol, first, owner, fun inV inside => ?_⟩
      obtain ⟨range, member, known⟩ := exists_of_forall₂ listed.flip inside
      refine ⟨range, known, ?_⟩
      rw [listings_append, emits_of_takes first, listings, listedRows_item owner listed]
      exact List.mem_append_right _ (List.mem_append_left _ (List.mem_map_of_mem member))
  | touched plain | labelled plain | aside plain | flushed plain => exact plain.elim

/-! ## How much is written at once -/

/-- How many values are bound to write what waits: four for each item. -/
def bound (w : GraphWriter) : Nat := 4 * w.pending.size

/-- Collects items as `addItems` does, with a way of its own to write a batch. -/
def addItemsBy (put : GraphWriter → GraphWriter) (symbol : RowId) (property : String) :
    List Id → Writing Unit
  | [] => return
  | id :: rest => do
      let w ← get
      match w.ranges.get? id with
      | none => throw (.unknownRange id)
      | some range =>
          let w := { w with pending := w.pending.push { project := w.project, symbol, range, property } }
          set (if batchSize ≤ w.pending.size then put w else w)
          addItemsBy put symbol property rest

/-- Writes what an element stands for, with a way of its own to write what waits. -/
def writeBy (put : GraphWriter → GraphWriter) (e : Element) : Writing Unit := do
  match e.body with
  | .item i => addItemsBy put (← symbolOf i.outV) i.property.name i.inVs
  | .contains outV _ =>
      let w ← get
      unless w.documents.contains outV do set (put w)
  | _ => write e

/-- A sink that writes what waits in a way of its own. -/
def sinkBy (put : GraphWriter → GraphWriter) : Graph.Sink GraphWriter := fun e w =>
  match (writeBy put e).run w with
  | (.ok (), w) => .ok { w with written := w.written + 1 }
  | (.error refusal, _) => .error (reason e refusal)

theorem sink_eq_of_effect {put : GraphWriter → GraphWriter}
    (same : effect (writeBy put e) w = effect (write e) w) : sinkBy put e w = sink e w := by
  have same : (writeBy put e).run w = (write e).run w := same
  unfold sinkBy sink emit
  rw [same]
  rcases (write e).run w with ⟨_ | ⟨⟨⟩⟩, _⟩ <;> rfl

/-- The writer is a sink that flushes. -/
theorem sinkBy_flush : sinkBy flush = sink := by
  have collects (symbol : RowId) (property : String) (ids : List Id) :
      addItemsBy flush symbol property ids = addItems symbol property ids := by
    induction ids with
    | nil => rfl
    | cons id ids ih =>
        rw [addItemsBy, ih]
        rfl
  funext e w
  refine sink_eq_of_effect ?_
  obtain ⟨id, body⟩ := e
  cases body with
  | item i => simp only [writeBy, write, collects]
  | _ => rfl

/-- A writer between two elements has no full batch. -/
def Within (w : GraphWriter) : Prop := w.pending.size < batchSize

theorem within_start (db : Database) (p : Project) : (start db p).Within := Nat.zero_lt_succ _

theorem within_withItem (symbol : RowId) (property : String) (w : GraphWriter) (range : RowId) :
    (withItem symbol property w range).Within := by
  simp only [withItem]
  split
  · rw [flush_eq]
    exact Nat.zero_lt_succ _
  · exact Nat.not_le.1 ‹_›

theorem within_withItems (h : w.Within) (symbol : RowId) (property : String)
    (rows : List RowId) : (rows.foldl (withItem symbol property) w).Within := by
  induction rows generalizing w with
  | nil => exact h
  | cons row rows ih => exact ih (within_withItem symbol property w row)

/-- **An element leaves no full batch behind.** -/
theorem Taking.within (taking : Taking w e w') (h : w.Within) : w'.Within := by
  cases taking with
  | document | symbol | range | touched | labelled | aside => exact h
  | @item _ i symbol rows => exact within_withItems h symbol i.property.name rows
  | flushed =>
      rw [flush_eq]
      exact Nat.zero_lt_succ _

theorem Within.bound_le (h : w.Within) : w.bound ≤ 999 := by
  unfold Within batchSize at h
  unfold bound
  omega

section Put

variable {put : GraphWriter → GraphWriter} (alike : ∀ v : GraphWriter, v.bound ≤ 999 → put v = v.flush)

include alike

/-- A batch is full with 249 items, before it binds more than 999 values. -/
theorem effect_addItemsBy (h : w.Within) (symbol : RowId) (property : String) (ids : List Id) :
    effect (addItemsBy put symbol property ids) w = effect (addItems symbol property ids) w := by
  induction ids generalizing w with
  | nil => rfl
  | cons id ids ih =>
      rw [addItemsBy, addItems, effect_get_bind, effect_get_bind]
      cases known : w.ranges.get? id with
      | none => rfl
      | some range =>
          let item : ItemRow := { project := w.project, symbol, range, property }
          have small : bound { w with pending := w.pending.push item } ≤ 999 := by
            unfold Within batchSize at h
            simp only [bound, Array.size_push]
            omega
          have written := alike _ small
          simp only [item] at written
          simp only [effect_bind, effect_set, written]
          exact ih (within_withItem symbol property w range)

/-- **What would be done with more than 999 values makes no difference.** -/
theorem effect_writeBy (h : w.Within) (e : Element) :
    effect (writeBy put e) w = effect (write e) w := by
  obtain ⟨id, body⟩ := e
  cases body with
  | item i =>
      simp only [writeBy, write, effect_bind, effect_symbolOf]
      cases w.symbols.get? i.outV with
      | none => rfl
      | some symbol => exact effect_addItemsBy alike h symbol i.property.name i.inVs
  | contains outV inVs =>
      simp only [writeBy, write, effect_get_bind, alike w h.bound_le]
  | _ => rfl

theorem takes_sinkBy (begun : base.Within) (taken : sink.Takes base elements w) :
    (sinkBy put).Takes base elements w ∧ w.Within := by
  induction elements, w, taken using takes_induction with
  | nil => exact ⟨Graph.takes_nil, begun⟩
  | @snoc elements u e v before last taking ih =>
      obtain ⟨before', within⟩ := ih
      have same := sink_eq_of_effect (effect_writeBy alike within e)
      exact ⟨Graph.takes_snoc.2 ⟨u, before', same.trans last⟩, taking.within within⟩

end Put
end GraphWriter

open GraphWriter (bound itemKey listings sink sinkBy standing start)

/-- **Nobody can tell that items are written in batches.**  Whatever elements a writer takes for a
project of a store, once it is closed

* the items are those that there would be had each item been written on its own;
* those of the project are the rows that the item edges list, and no two of them agree in symbol,
  range and property;
* every range of every item edge is among them;
* no batch binds more than 999 values: what would be done with more makes no difference;
* and to close the writer again adds nothing. -/
theorem items_batched {db : Database} (reached : db.Reached) (p : Project)
    {elements : List Element} {w : GraphWriter} (taken : sink.Takes (start db p) elements w) :
    w.flush.database.items =
      (listings (start db p) elements).foldl standing (start db p).database.items ∧
    (∀ row : ItemRow, row.project = p.name →
      (row ∈ w.flush.database.items ↔ row ∈ listings (start db p) elements)) ∧
    ((w.flush.database.items.filter (·.project = p.name)).toList.map itemKey).Nodup ∧
    (∀ before id i after, elements = before ++ ⟨id, .item i⟩ :: after →
      ∃ u symbol, sink.Takes (start db p) before u ∧ u.symbols.get? i.outV = some symbol ∧
        ∀ inV ∈ i.inVs, ∃ range, u.ranges.get? inV = some range ∧
          { project := p.name, symbol, range, property := i.property.name } ∈
            w.flush.database.items) ∧
    (sinkBy GraphWriter.flush = sink ∧ ∀ put : GraphWriter → GraphWriter,
      (∀ v : GraphWriter, v.bound ≤ 999 → put v = v.flush) →
        (sinkBy put).Takes (start db p) elements w ∧ put w = w.flush) ∧
    w.flush.flush = w.flush := by
  have sound := (GraphWriter.sound_start reached.sound p).database
  have items : w.flush.database.items =
      (listings (start db p) elements).foldl standing (start db p).database.items :=
    GraphWriter.settled_of_takes taken
  have begun : GraphWriter.Fresh (start db p) (start db p) :=
    ⟨rfl, Nat.le_refl _, Table.all_empty _⟩
  obtain ⟨-, fresh⟩ := GraphWriter.fresh_of_takes begun taken
  have none_ : ∀ i ∈ (start db p).database.items, i.project ≠ p.name := fun i member =>
    of_decide_eq_true (Array.mem_filter.1 member).2
  have exact_ : ∀ row : ItemRow, row.project = p.name →
      (row ∈ w.flush.database.items ↔ row ∈ listings (start db p) elements) := by
    intro row own
    rw [items]
    constructor
    · intro stands
      exact (GraphWriter.mem_foldl_standing stands).resolve_left fun old => none_ row old own
    · intro listed
      have written : row ∈ (start db p).database.items ∨ row ∈ listings (start db p) elements :=
        .inr listed
      obtain ⟨j, stands, symbol, range, property⟩ := GraphWriter.stands_foldl written
      obtain old | new := GraphWriter.mem_foldl_standing stands
      · have given := (sound.items j old).1
        exact absurd (symbol ▸ given) (Nat.not_le_of_lt (fresh row listed).2)
      · have same : j = row := by
          obtain ⟨project, _, _, _⟩ := j
          obtain ⟨project', _, _, _⟩ := row
          obtain rfl : project = p.name := (fresh _ new).1
          obtain rfl : project' = p.name := own
          simp only at symbol range property
          rw [symbol, range, property]
        exact same ▸ stands
  refine ⟨items, exact_, ?_, fun before id i after split_ => ?_,
    ⟨GraphWriter.sinkBy_flush, fun put alike => ?_⟩, w.flush_flush⟩
  · rw [items]
    refine GraphWriter.nodup_foldl_standing ?_ _
    have blank : (start db p).database.items.filter (·.project = p.name) = #[] :=
      Array.filter_eq_empty_iff.2 fun i member => by simpa using none_ i member
    rw [blank]
    exact List.nodup_nil
  · subst split_
    obtain ⟨u, symbol, first, owner, known⟩ := GraphWriter.listed_of_takes taken
    refine ⟨u, symbol, first, owner, fun inV inside => ?_⟩
    obtain ⟨range, found, listed⟩ := known inV inside
    rw [show u.project = p.name from (fresh _ listed).1] at listed
    exact ⟨range, found, (exact_ _ rfl).2 listed⟩
  · obtain ⟨taken', within⟩ := GraphWriter.takes_sinkBy alike (GraphWriter.within_start db p) taken
    exact ⟨taken', alike w within.bound_le⟩

/-! ### More references than one batch holds -/

/-- 251 references to one symbol, then the edge from the project to its documents, then another
item.  The first batch is full in the middle of an edge, and repeats one row. -/
def overfull : List Element := [
  ⟨1, .document { uri := "file:///repo/a.go", path := "a.go" }⟩,
  ⟨2, .resultSet { name := "f" }⟩,
  ⟨3, .range { document := 1, resultSet := 2, span := ⟨⟨1, 0⟩, ⟨1, 1⟩⟩ }⟩,
  ⟨4, .range { document := 1, resultSet := 2, span := ⟨⟨2, 0⟩, ⟨2, 1⟩⟩ }⟩,
  ⟨5, .contains 1 [3, 4]⟩,
  ⟨6, .item { outV := 2, inVs := .replicate 249 3 ++ [4, 3], document := 1 }⟩,
  ⟨7, .contains 9 [1]⟩,
  ⟨8, .item { outV := 2, inVs := [4], document := 1, property := .definitions }⟩]

/-- The row of an item of the only symbol. -/
def overfullRow (range : RowId) (property : String) : ItemRow :=
  { project := "p", symbol := 1, range, property }

theorem listings_overfull :
    listings (start {} { name := "p" }) overfull = .replicate 249 (overfullRow 1 "references") ++
      [overfullRow 2 "references", overfullRow 1 "references", overfullRow 2 "definitions"] := by
  decide +kernel

theorem takes_overfull : ∃ w, sink.Takes (start {} { name := "p" }) overfull w := by
  have accepted : (overfull.foldlM (fun w e => sink e w)
      (start {} { name := "p" })).toOption.isSome = true := by
    decide +kernel
  unfold Graph.Sink.Takes
  revert accepted
  cases overfull.foldlM (fun w e => sink e w) (start {} { name := "p" }) with
  | ok w => exact fun _ => ⟨w, rfl⟩
  | error _ => exact fun accepted => nomatch accepted

theorem items_batched_overfull :
    Database.Reached {} ∧ ∃ w, sink.Takes (start {} { name := "p" }) overfull w ∧
      ((w.flush.database.items.filter (·.project = "p")).toList.map itemKey).Nodup ∧
      ∀ row : ItemRow, row.project = "p" → (row ∈ w.flush.database.items ↔
        row = overfullRow 1 "references" ∨ row = overfullRow 2 "references" ∨
          row = overfullRow 2 "definitions") := by
  obtain ⟨w, taken⟩ := takes_overfull
  obtain ⟨-, listed, once, -⟩ := items_batched .empty { name := "p" } taken
  refine ⟨.empty, w, taken, once, fun row own => ?_⟩
  rw [listed row own, listings_overfull]
  simp only [List.mem_append, List.mem_replicate, List.mem_cons, List.not_mem_nil, or_false]
  tauto

end Store
end SymbolAtlas
