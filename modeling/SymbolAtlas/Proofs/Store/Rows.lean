/-
# SymbolAtlas.Proofs.Store.Rows -- rows are numbered once

The rows of a store are numbered, and a number is given once, also across projects and after
deletions (`Numbered`).  What refers to a row refers to a number that was given
(`Database.Sound`), so a row that is written next is referred to by nothing that stands already.
-/
import SymbolAtlas.Store.GraphWriter

set_option autoImplicit false

namespace SymbolAtlas.Store

open SymbolAtlas.Graph (Id Element)

/-! ## Numbers -/

/-- No number stands twice, and none is above the last that was given. -/
structure Numbered (ids : List Nat) (last : Nat) : Prop where
  once : ids.Nodup
  given : ∀ id ∈ ids, id ≤ last

theorem numbered_nil (last : Nat) : Numbered [] last := ⟨List.nodup_nil, by simp⟩

theorem Numbered.sublist {ids fewer : List Nat} {last : Nat} (h : Numbered ids last)
    (inside : fewer.Sublist ids) : Numbered fewer last :=
  ⟨h.once.sublist inside, fun id member => h.given id (inside.subset member)⟩

theorem Numbered.snoc {ids : List Nat} {last : Nat} (h : Numbered ids last) :
    Numbered (ids ++ [last + 1]) (last + 1) := by
  refine ⟨List.nodup_append.2 ⟨h.once, by simp, fun id member other here => ?_⟩, fun id member => ?_⟩
  · have given := h.given id member
    obtain rfl := List.mem_singleton.1 here
    omega
  · rcases List.mem_append.1 member with old | new
    · have given := h.given id old
      omega
    · exact Nat.le_of_eq (List.mem_singleton.1 new)

/-- Numbers that were given, and references to them that are not above the last. -/
structure Database.Sound (db : Database) : Prop where
  documents : Numbered (db.documents.toList.map (·.id)) db.lastDocument
  symbols : Numbered (db.symbols.toList.map (·.id)) db.lastSymbol
  ranges : Numbered (db.ranges.toList.map (·.id)) db.lastRange
  homes : ∀ r ∈ db.ranges, r.document ≤ db.lastDocument ∧ r.symbol ≤ db.lastSymbol
  items : ∀ i ∈ db.items, i.symbol ≤ db.lastSymbol ∧ i.range ≤ db.lastRange

namespace Database.Sound

variable {db : Database}

theorem empty : Database.Sound {} where
  documents := numbered_nil 0
  symbols := numbered_nil 0
  ranges := numbered_nil 0
  homes := by simp
  items := by simp

theorem upsert (h : db.Sound) (p : Project) : (db.upsert p).Sound :=
  ⟨h.documents, h.symbols, h.ranges, h.homes, h.items⟩

theorem clearGraph (h : db.Sound) (project : String) : (db.clearGraph project).Sound where
  documents := by
    refine h.documents.sublist ?_
    simp only [Database.clearGraph, Array.toList_filter]
    exact List.filter_sublist.map _
  symbols := by
    refine h.symbols.sublist ?_
    simp only [Database.clearGraph, Array.toList_map, Array.toList_filter, List.map_map,
      Function.comp_def]
    exact List.filter_sublist.map _
  ranges := by
    refine h.ranges.sublist ?_
    simp only [Database.clearGraph, Array.toList_filter]
    exact List.filter_sublist.map _
  homes r member := h.homes r (Array.mem_filter.1 member).1
  items i member := h.items i (Array.mem_filter.1 member).1

theorem removeProject (h : db.Sound) (project : String) : (db.removeProject project).Sound :=
  have cleared := h.clearGraph project
  ⟨cleared.documents, cleared.symbols, cleared.ranges, cleared.homes, cleared.items⟩

theorem replaceHashes (h : db.Sound) {project : String} {hashes : List (String × String)}
    {db' : Database} (replaced : db.replaceHashes project hashes = .ok db') : db'.Sound := by
  unfold Database.replaceHashes at replaced
  simp only at replaced
  split at replaced
  · obtain rfl := Except.ok.inj replaced
    exact ⟨h.documents, h.symbols, h.ranges, h.homes, h.items⟩
  · split at replaced
    · cases replaced
    · obtain rfl := Except.ok.inj replaced
      exact ⟨h.documents, h.symbols, h.ranges, h.homes, h.items⟩

theorem forgetLibraries (h : db.Sound) : db.forgetLibraries.Sound where
  documents := by
    simp only [Database.forgetLibraries, Array.toList_map, List.map_map, Function.comp_def]
    exact h.documents
  symbols := h.symbols
  ranges := h.ranges
  homes := h.homes
  items := h.items

/-- A change of symbols that keeps their numbers. -/
theorem modifySymbol (h : db.Sound) (id : RowId) {f : SymbolRow → SymbolRow}
    (same : ∀ s, (f s).id = s.id) : (db.modifySymbol id f).Sound where
  documents := h.documents
  symbols := by
    have ids : (db.modifySymbol id f).symbols.toList.map (·.id) =
        db.symbols.toList.map (·.id) := by
      simp only [Database.modifySymbol, Array.toList_map, List.map_map]
      refine List.map_congr_left fun s _ => ?_
      by_cases here : s.id = id <;> simp [here, same]
    rw [ids]
    exact h.symbols
  ranges := h.ranges
  homes := h.homes
  items := h.items

end Database.Sound

/-! ## Writers -/

/-- A writer over sound rows, which knows none but given numbers. -/
structure GraphWriter.Sound (w : GraphWriter) : Prop where
  database : w.database.Sound
  documents : w.documents.All fun _ row => row ≤ w.database.lastDocument
  symbols : w.symbols.All fun _ row => row ≤ w.database.lastSymbol
  ranges : w.ranges.All fun _ row => row ≤ w.database.lastRange
  pending : ∀ i ∈ w.pending, i.symbol ≤ w.database.lastSymbol ∧ i.range ≤ w.database.lastRange

namespace GraphWriter

/-- The items that stand or wait. -/
def HasItem (w : GraphWriter) (symbol range : RowId) (property : String) : Prop :=
  ∃ i, (i ∈ w.database.items ∨ i ∈ w.pending) ∧ i.symbol = symbol ∧ i.range = range ∧
    i.property = property

/-- What is written of waiting items: those that do not stand already. -/
def standing (rows : Array ItemRow) (item : ItemRow) : Array ItemRow :=
  if rows.any fun r => r.symbol = item.symbol ∧ r.range = item.range ∧ r.property = item.property
  then rows else rows.push item

theorem flush_eq (w : GraphWriter) :
    w.flush = { w with
      database := { w.database with items := w.pending.toList.foldl standing w.database.items }
      pending := #[] } := by
  unfold flush
  rw [← Array.foldl_toList]
  rfl

theorem mem_standing {rows : Array ItemRow} {item i : ItemRow} (member : i ∈ standing rows item) :
    i ∈ rows ∨ i = item := by
  unfold standing at member
  split at member
  · exact .inl member
  · exact Array.mem_push.1 member

theorem mem_foldl_standing {items : List ItemRow} {rows : Array ItemRow} {i : ItemRow}
    (member : i ∈ items.foldl standing rows) : i ∈ rows ∨ i ∈ items := by
  induction items generalizing rows with
  | nil => exact .inl member
  | cons item items ih =>
      rcases ih member with here | later
      · rcases mem_standing here with old | rfl
        · exact .inl old
        · exact .inr List.mem_cons_self
      · exact .inr (List.mem_cons_of_mem _ later)

/-- An item that waits is written, or one like it stands. -/
theorem stands_foldl {items : List ItemRow} {rows : Array ItemRow} {i : ItemRow}
    (member : i ∈ rows ∨ i ∈ items) :
    ∃ j ∈ items.foldl standing rows,
      j.symbol = i.symbol ∧ j.range = i.range ∧ j.property = i.property := by
  induction items generalizing rows i with
  | nil => exact ⟨i, member.resolve_right (by simp), rfl, rfl, rfl⟩
  | cons item items ih =>
      have kept : ∀ j ∈ rows, j ∈ standing rows item := by
        intro j old
        unfold standing
        split
        · exact old
        · exact Array.mem_push_of_mem _ old
      rcases member with old | new
      · exact ih (.inl (kept i old))
      rcases List.mem_cons.1 new with rfl | later
      · have here : ∃ j ∈ standing rows i,
            j.symbol = i.symbol ∧ j.range = i.range ∧ j.property = i.property := by
          unfold standing
          split
          · rename_i known
            obtain ⟨j, old, same⟩ := Array.any_eq_true'.1 known
            exact ⟨j, old, of_decide_eq_true same⟩
          · exact ⟨i, Array.mem_push_self, rfl, rfl, rfl⟩
        obtain ⟨j, stands, symbol, range, property⟩ := here
        obtain ⟨k, written, symbol', range', property'⟩ := ih (.inl stands)
        exact ⟨k, written, symbol'.trans symbol, range'.trans range, property'.trans property⟩
      · exact ih (.inr later)

/-- **Writing what waits loses no item and adds none.** -/
theorem hasItem_flush {w : GraphWriter} {symbol range : RowId} {property : String} :
    w.flush.HasItem symbol range property ↔ w.HasItem symbol range property := by
  rw [flush_eq]
  unfold HasItem
  constructor
  · rintro ⟨i, stands, same⟩
    have written : i ∈ w.pending.toList.foldl standing w.database.items :=
      stands.resolve_right (by simp)
    refine ⟨i, ?_, same⟩
    rcases mem_foldl_standing written with old | waits
    · exact .inl old
    · exact .inr (Array.mem_toList_iff.1 waits)
  · rintro ⟨i, member, rfl, rfl, rfl⟩
    have member : i ∈ w.database.items ∨ i ∈ w.pending.toList :=
      member.imp_right Array.mem_toList_iff.2
    obtain ⟨j, written, same⟩ := stands_foldl member
    exact ⟨j, .inl written, same⟩

theorem sound_start {db : Database} (h : db.Sound) (p : Project) : (start db p).Sound where
  database := (h.upsert p).clearGraph p.name
  documents := Table.all_empty _
  symbols := Table.all_empty _
  ranges := Table.all_empty _
  pending := by simp [start]

theorem Sound.flush {w : GraphWriter} (h : w.Sound) : w.flush.Sound := by
  rw [flush_eq]
  refine ⟨⟨h.database.documents, h.database.symbols, h.database.ranges, h.database.homes, ?_⟩,
    h.documents, h.symbols, h.ranges, by simp⟩
  intro i member
  rcases mem_foldl_standing member with old | waits
  · exact h.database.items i old
  · exact h.pending i (Array.mem_toList_iff.1 waits)

end GraphWriter

end SymbolAtlas.Store
