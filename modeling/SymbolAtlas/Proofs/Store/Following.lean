/-
# SymbolAtlas.Proofs.Store.Following -- the rows of a stream

A writer that has taken a stream holds a row for each document, each symbol and each range of
the stream, besides the rows that were there before (`Follows`).  It finds them by the IDs of
their elements (`Carries`), and the items that stand or wait are those that the stream lists.

One lemma says what taking one more element does (`Follows.taking`), and `follows` what taking a
whole stream does.
-/
import SymbolAtlas.Proofs.Graph.Order
import SymbolAtlas.Proofs.Session.Refusal
import SymbolAtlas.Proofs.Store.Writing

set_option autoImplicit false

namespace SymbolAtlas.Store

open SymbolAtlas.Graph (Id Element)

/-! ## Rows and the IDs that find them -/

/-- `table` finds a row among `rows` for each of the IDs that are `listed`, and every row is an
`old` one or is found by an ID that it `fits`.  Only numbers above `low` are found, and each by
one ID. -/
structure Carries {ρ : Type} (number : ρ → RowId) (low : RowId) (listed : Id → Prop)
    (old : ρ → Prop) (fits : Id → ρ → Prop) (rows : Array ρ) (table : Table Id RowId) : Prop where
  mapped : ∀ id, listed id → ∃ n, table.get? id = some n
  above : ∀ id n, table.get? id = some n → low < n
  apart : ∀ id id' n, table.get? id = some n → table.get? id' = some n → id = id'
  stands : ∀ id n, table.get? id = some n → ∃ row ∈ rows, number row = n ∧ fits id row
  origin : ∀ row ∈ rows, old row ∨ ∃ id, table.get? id = some (number row) ∧ fits id row

namespace Carries

variable {ρ : Type} {number : ρ → RowId} {low : RowId} {listed listed' : Id → Prop}
  {old : ρ → Prop} {fits fits' : Id → ρ → Prop} {rows : Array ρ} {table : Table Id RowId}

theorem imp (h : Carries number low listed old fits rows table)
    (fewer : ∀ id, listed' id → listed id) (wider : ∀ id row, fits id row → fits' id row) :
    Carries number low listed' old fits' rows table where
  mapped id member := h.mapped id (fewer id member)
  above := h.above
  apart := h.apart
  stands id n found := by
    obtain ⟨row, here, same, fitting⟩ := h.stands id n found
    exact ⟨row, here, same, wider id row fitting⟩
  origin row member := (h.origin row member).imp_right fun ⟨id, found, fitting⟩ =>
    ⟨id, found, wider id row fitting⟩

/-- One more row with the next number, found by a new ID. -/
theorem push (h : Carries number low listed old fits rows table) {id : Id} {row : ρ} {high : RowId}
    (fresh : table.get? id = none) (given : table.All fun _ n => n ≤ high) (reach : low ≤ high)
    (next : number row = high + 1) (only : ∀ id', listed' id' → listed id' ∨ id' = id)
    (fitting : fits id row) : Carries number low listed' old fits (rows.push row)
      (table.insert id (high + 1)) where
  mapped id' member := by
    rw [Table.get?_insert]
    split
    · exact ⟨_, rfl⟩
    · rename_i other
      exact h.mapped id' ((only id' member).resolve_right fun same => other same.symm)
  above id' n found := by
    rw [Table.get?_insert] at found
    split at found
    · exact Option.some.inj found ▸ Nat.lt_succ_of_le reach
    · exact h.above id' n found
  apart first second n found found' := by
    rw [Table.get?_insert] at found found'
    split at found <;> split at found'
    · rename_i here there
      exact here.symm.trans there
    · obtain rfl := Option.some.inj found
      exact absurd (given second _ found') (Nat.not_succ_le_self high)
    · obtain rfl := Option.some.inj found'
      exact absurd (given first _ found) (Nat.not_succ_le_self high)
    · exact h.apart first second n found found'
  stands id' n found := by
    rw [Table.get?_insert] at found
    split at found
    · rename_i same
      subst same
      exact ⟨row, Array.mem_push_self, next.trans (Option.some.inj found), fitting⟩
    · obtain ⟨other, here, same, fits_⟩ := h.stands id' n found
      exact ⟨other, Array.mem_push_of_mem _ here, same, fits_⟩
  origin other member := by
    rcases Array.mem_push.1 member with before | rfl
    · rcases h.origin other before with early | ⟨id', found, fits_⟩
      · exact .inl early
      · refine .inr ⟨id', ?_, fits_⟩
        rw [Table.get?_insert, if_neg]
        · exact found
        · rintro rfl
          simp [fresh] at found
    · exact .inr ⟨id, by rw [Table.get?_insert_self, next], fitting⟩

/-- A change of rows that keeps what they are. -/
theorem map (h : Carries number low listed old fits rows table) {f : ρ → ρ}
    (same : ∀ row, number (f row) = number row) (kept : ∀ row, old row → old (f row))
    (still : ∀ id row, fits id row → fits id (f row)) :
    Carries number low listed old fits (rows.map f) table where
  mapped := h.mapped
  above := h.above
  apart := h.apart
  stands id n found := by
    obtain ⟨row, here, number_, fitting⟩ := h.stands id n found
    exact ⟨f row, Array.mem_map_of_mem here, (same row).trans number_, still id row fitting⟩
  origin row member := by
    obtain ⟨before, here, rfl⟩ := Array.mem_map.1 member
    refine (h.origin before here).imp (kept before) fun ⟨id, found, fitting⟩ =>
      ⟨id, ?_, still id before fitting⟩
    rw [same]
    exact found

end Carries

/-! ## Rows of elements -/

variable {project : String} {stream more : List Element}

/-- The row of a document of a stream. -/
def DocumentOf (project : String) (stream : List Element) (id : Id) (row : DocumentRow) : Prop :=
  ∃ d, ⟨id, .document d⟩ ∈ stream ∧ row = documentRow project row.id d

/-- The row of a symbol of a stream, whatever its hover and whatever it stands for. -/
def SymbolOf (project : String) (stream : List Element) (id : Id) (row : SymbolRow) : Prop :=
  ∃ s hover aliasOf, ⟨id, .resultSet s⟩ ∈ stream ∧
    row = { symbolRow project row.id s with hover, aliasOf }

/-- The row of a range of a stream, under the rows that its document and its symbol have. -/
def RangeOf (w : GraphWriter) (stream : List Element) (id : Id) (row : RangeRow) : Prop :=
  ∃ r document symbol, ⟨id, .range r⟩ ∈ stream ∧
    w.documents.get? r.document = some document ∧ w.symbols.get? r.resultSet = some symbol ∧
    row = rangeRow w.project row.id document symbol r

/-- An item edge of a stream lists a range under a symbol. -/
def ItemOf (w : GraphWriter) (stream : List Element) (symbol range : RowId)
    (property : String) : Prop :=
  ∃ id i inV, ⟨id, .item i⟩ ∈ stream ∧ w.symbols.get? i.outV = some symbol ∧ inV ∈ i.inVs ∧
    w.ranges.get? inV = some range ∧ i.property.name = property

/-- A writer that began as `base` has taken a stream. -/
structure Follows (base : GraphWriter) (stream : List Element) (w : GraphWriter) : Prop where
  project : w.project = base.project
  sound : w.Sound
  later : base.database.lastDocument ≤ w.database.lastDocument ∧
    base.database.lastSymbol ≤ w.database.lastSymbol
  documents : Carries DocumentRow.id base.database.lastDocument
    (fun id => ∃ d, ⟨id, .document d⟩ ∈ stream) (fun row => row.project ≠ base.project)
    (DocumentOf base.project stream) w.database.documents w.documents
  symbols : Carries SymbolRow.id base.database.lastSymbol
    (fun id => ∃ s, ⟨id, .resultSet s⟩ ∈ stream) (fun row => row.id ≤ base.database.lastSymbol)
    (SymbolOf base.project stream) w.database.symbols w.symbols
  ranges : Carries RangeRow.id 0
    (fun id => ∃ r, ⟨id, .range r⟩ ∈ stream)
    (fun row => row.document ≤ base.database.lastDocument)
    (RangeOf w stream) w.database.ranges w.ranges
  items : ∀ symbol range property, w.HasItem symbol range property →
    symbol ≤ base.database.lastSymbol ∨ ItemOf w stream symbol range property
  listed : ∀ id i, ⟨id, .item i⟩ ∈ stream → ∃ symbol, w.symbols.get? i.outV = some symbol ∧
    ∀ inV ∈ i.inVs, ∃ range, w.ranges.get? inV = some range ∧
      w.HasItem symbol range i.property.name

/-! ## Streams and tables that grow -/

/-- What a table finds is found by another. -/
def Finds (table table' : Table Id RowId) : Prop :=
  ∀ id n, table.get? id = some n → table'.get? id = some n

theorem finds_insert {table : Table Id RowId} {id : Id} (fresh : table.get? id = none) (n : RowId) :
    Finds table (table.insert id n) := by
  intro other m found
  rw [Table.get?_insert, if_neg]
  · exact found
  · rintro rfl
    simp [fresh] at found

theorem DocumentOf.mono {id : Id} {row : DocumentRow} (h : DocumentOf project stream id row)
    (inside : stream ⊆ more) : DocumentOf project more id row := by
  obtain ⟨d, member, shape⟩ := h
  exact ⟨d, inside member, shape⟩

theorem SymbolOf.mono {id : Id} {row : SymbolRow} (h : SymbolOf project stream id row)
    (inside : stream ⊆ more) : SymbolOf project more id row := by
  obtain ⟨s, hover, aliasOf, member, shape⟩ := h
  exact ⟨s, hover, aliasOf, inside member, shape⟩

section Grown

variable {w w' : GraphWriter}

theorem RangeOf.mono {id : Id} {row : RangeRow} (h : RangeOf w stream id row)
    (inside : stream ⊆ more) (same : w'.project = w.project)
    (documents : Finds w.documents w'.documents) (symbols : Finds w.symbols w'.symbols) :
    RangeOf w' more id row := by
  obtain ⟨r, document, symbol, member, home, owner, shape⟩ := h
  exact ⟨r, document, symbol, inside member, documents _ _ home, symbols _ _ owner, same ▸ shape⟩

theorem ItemOf.mono {symbol range : RowId} {property : String}
    (h : ItemOf w stream symbol range property) (inside : stream ⊆ more)
    (symbols : Finds w.symbols w'.symbols) (ranges : Finds w.ranges w'.ranges) :
    ItemOf w' more symbol range property := by
  obtain ⟨id, i, inV, member, owner, here, known, name⟩ := h
  exact ⟨id, i, inV, inside member, symbols _ _ owner, here, ranges _ _ known, name⟩

end Grown

/-! ## Items -/

namespace GraphWriter

variable {w : GraphWriter} {symbol : RowId} {property : String}

theorem hasItem_withItem {range s r : RowId} {p : String} :
    (withItem symbol property w range).HasItem s r p ↔
      w.HasItem s r p ∨ (s = symbol ∧ r = range ∧ p = property) := by
  have collected : GraphWriter.HasItem
      { w with pending := w.pending.push ⟨w.project, symbol, range, property⟩ } s r p ↔
      w.HasItem s r p ∨ (s = symbol ∧ r = range ∧ p = property) := by
    unfold HasItem
    simp only [Array.mem_push]
    constructor
    · rintro ⟨i, stands | waits | rfl, rfl, rfl, rfl⟩
      · exact .inl ⟨i, .inl stands, rfl, rfl, rfl⟩
      · exact .inl ⟨i, .inr waits, rfl, rfl, rfl⟩
      · exact .inr ⟨rfl, rfl, rfl⟩
    · rintro (⟨i, here, same⟩ | ⟨rfl, rfl, rfl⟩)
      · exact ⟨i, here.imp_right .inl, same⟩
      · exact ⟨_, .inr (.inr rfl), rfl, rfl, rfl⟩
  simp only [withItem]
  split
  · rw [hasItem_flush, collected]
  · exact collected

theorem hasItem_withItems {rows : List RowId} {s r : RowId} {p : String} :
    (rows.foldl (withItem symbol property) w).HasItem s r p ↔
      w.HasItem s r p ∨ (s = symbol ∧ r ∈ rows ∧ p = property) := by
  induction rows generalizing w with
  | nil => simp
  | cons row rows ih =>
      rw [List.foldl_cons, ih, hasItem_withItem, List.mem_cons]
      tauto

end GraphWriter

/-! ## One more element -/

open GraphWriter in
theorem mem_of_plain {e : Element} {id : Id} {body : Graph.Body} (plain : Plain e.body)
    (loud : ¬ Plain body) (member : ⟨id, body⟩ ∈ stream ++ [e]) : ⟨id, body⟩ ∈ stream := by
  rcases List.mem_append.1 member with old | new
  · exact old
  · obtain rfl := List.mem_singleton.1 new
    exact absurd plain loud

namespace Follows

open GraphWriter

variable {base w w' : GraphWriter} {id : Id}

theorem start (sound : base.Sound) (fresh : base.documents = .empty ∧ base.symbols = .empty ∧
    base.ranges = .empty) (blank : ∀ row ∈ base.database.documents, row.project ≠ base.project) :
    Follows base [] base := by
  obtain ⟨documents, symbols, ranges⟩ := fresh
  refine ⟨rfl, sound, ⟨Nat.le_refl _, Nat.le_refl _⟩, ?_, ?_, ?_, fun s r p has => .inl ?_, by simp⟩
  · exact ⟨by simp, by simp [documents], by simp [documents], by simp [documents],
      fun row member => .inl (blank row member)⟩
  · exact ⟨by simp, by simp [symbols], by simp [symbols], by simp [symbols], fun row member =>
      .inl (sound.database.symbols.given _ (List.mem_map_of_mem (Array.mem_toList_iff.2 member)))⟩
  · exact ⟨by simp, by simp [ranges], by simp [ranges], by simp [ranges], fun row member =>
      .inl (sound.database.homes row member).1⟩
  · obtain ⟨i, stands | waits, rfl, -⟩ := has
    · exact (sound.database.items i stands).1
    · exact (sound.pending i waits).1

/-- What lists no row is no news. -/
theorem plain (h : Follows base stream w) {e : Element} (plain : Plain e.body) :
    Follows base (stream ++ [e]) w := by
  have inside := List.subset_append_left stream [e]
  refine ⟨h.project, h.sound, h.later, h.documents.imp ?_ ?_, h.symbols.imp ?_ ?_,
    h.ranges.imp ?_ ?_, fun s r p has => (h.items s r p has).imp_right ?_, fun id i member => ?_⟩
  · exact fun id ⟨d, member⟩ => ⟨d, mem_of_plain plain not_false member⟩
  · exact fun _ _ fit => fit.mono inside
  · exact fun id ⟨s, member⟩ => ⟨s, mem_of_plain plain not_false member⟩
  · exact fun _ _ fit => fit.mono inside
  · exact fun id ⟨r, member⟩ => ⟨r, mem_of_plain plain not_false member⟩
  · exact fun _ _ fit => fit.mono inside rfl (fun _ _ found => found) (fun _ _ found => found)
  · exact fun listed => listed.mono inside (fun _ _ found => found) (fun _ _ found => found)
  · exact h.listed id i (mem_of_plain plain not_false member)

theorem flush (h : Follows base stream w) : Follows base stream w.flush := by
  have sound := h.sound.flush
  rw [flush_eq] at sound ⊢
  refine ⟨h.project, sound, h.later, h.documents, h.symbols, h.ranges, fun s r p has => ?_,
    fun id i member => ?_⟩
  · rw [← flush_eq, hasItem_flush] at has
    exact h.items s r p has
  · obtain ⟨symbol, owner, has⟩ := h.listed id i member
    refine ⟨symbol, owner, fun inV here => ?_⟩
    obtain ⟨range, known, item⟩ := has inV here
    exact ⟨range, known, by rw [← flush_eq, hasItem_flush]; exact item⟩

theorem touched (h : Follows base stream w) {symbol : RowId} {f : SymbolRow → SymbolRow}
    (same : ∀ s, ∃ hover aliasOf, f s = { s with hover, aliasOf })
    (sound : GraphWriter.Sound { w with database := w.database.modifySymbol symbol f }) :
    Follows base stream { w with database := w.database.modifySymbol symbol f } := by
  refine ⟨h.project, sound, h.later, h.documents, ?_, h.ranges, h.items, h.listed⟩
  have number : ∀ row : SymbolRow, (f row).id = row.id := fun row => by
    obtain ⟨_, _, shape⟩ := same row
    rw [shape]
  refine h.symbols.map (fun row => ?_) (fun row old => ?_) fun id row fit => ?_
  · split
    · exact number row
    · rfl
  · split
    · exact (number row).symm ▸ old
    · exact old
  · split
    · obtain ⟨s, hover, aliasOf, member, shape⟩ := fit
      obtain ⟨hover', aliasOf', touched⟩ := same row
      exact ⟨s, hover', aliasOf', member, by rw [number, touched, shape]; rfl⟩
    · exact fit

theorem document (h : Follows base stream w) {d : Graph.Document}
    (fresh : w.documents.get? id = none) :
    Follows base (stream ++ [⟨id, .document d⟩]) (w.withDocument id d) := by
  have inside := List.subset_append_left stream [⟨id, .document d⟩]
  have finds : Finds w.documents (w.documents.insert id (w.database.lastDocument + 1)) :=
    finds_insert fresh _
  refine ⟨h.project, h.sound.withDocument id d, ⟨Nat.le_succ_of_le h.later.1, h.later.2⟩, ?_,
    h.symbols.imp ?_ ?_, h.ranges.imp ?_ ?_, fun s r p has => (h.items s r p has).imp_right ?_,
    fun id i member => ?_⟩
  · refine (h.documents.imp (fun _ listed => listed) fun _ _ fit => fit.mono inside).push fresh
      h.sound.documents h.later.1 rfl ?_ ?_
    · rintro id' ⟨d', member⟩
      rcases List.mem_append.1 member with old | new
      · exact .inl ⟨d', old⟩
      · exact .inr (congrArg Element.id (List.mem_singleton.1 new))
    · exact ⟨d, by simp, by rw [← h.project]; rfl⟩
  · exact fun id ⟨s, member⟩ => ⟨s, by simpa using member⟩
  · exact fun _ _ fit => fit.mono inside
  · exact fun id ⟨r, member⟩ => ⟨r, by simpa using member⟩
  · exact fun _ _ fit => fit.mono inside rfl finds fun _ _ found => found
  · exact fun listed => listed.mono inside (fun _ _ found => found) fun _ _ found => found
  · exact h.listed id i (by simpa using member)

theorem symbol (h : Follows base stream w) {s : Graph.ResultSet}
    (fresh : w.symbols.get? id = none) :
    Follows base (stream ++ [⟨id, .resultSet s⟩]) (w.withSymbol id s) := by
  have inside := List.subset_append_left stream [⟨id, .resultSet s⟩]
  have finds : Finds w.symbols (w.symbols.insert id (w.database.lastSymbol + 1)) :=
    finds_insert fresh _
  refine ⟨h.project, h.sound.withSymbol id s, ⟨h.later.1, Nat.le_succ_of_le h.later.2⟩,
    h.documents.imp ?_ ?_, ?_, h.ranges.imp ?_ ?_,
    fun s r p has => (h.items s r p has).imp_right ?_, fun id i member => ?_⟩
  · exact fun id ⟨d, member⟩ => ⟨d, by simpa using member⟩
  · exact fun _ _ fit => fit.mono inside
  · refine (h.symbols.imp (fun _ listed => listed) fun _ _ fit => fit.mono inside).push fresh
      h.sound.symbols h.later.2 rfl ?_ ?_
    · rintro id' ⟨s', member⟩
      rcases List.mem_append.1 member with old | new
      · exact .inl ⟨s', old⟩
      · exact .inr (congrArg Element.id (List.mem_singleton.1 new))
    · exact ⟨s, "", none, by simp, by rw [← h.project]; rfl⟩
  · exact fun id ⟨r, member⟩ => ⟨r, by simpa using member⟩
  · exact fun _ _ fit => fit.mono inside rfl (fun _ _ found => found) finds
  · exact fun listed => listed.mono inside finds fun _ _ found => found
  · obtain ⟨symbol, owner, has⟩ := h.listed id i (by simpa using member)
    exact ⟨symbol, finds _ _ owner, has⟩

theorem range (h : Follows base stream w) {r : Graph.Range} {document symbol : RowId}
    (fresh : w.ranges.get? id = none) (home : w.documents.get? r.document = some document)
    (owner : w.symbols.get? r.resultSet = some symbol) :
    Follows base (stream ++ [⟨id, .range r⟩]) (w.withRange id document symbol r) := by
  have inside := List.subset_append_left stream [⟨id, .range r⟩]
  have finds : Finds w.ranges (w.ranges.insert id (w.database.lastRange + 1)) :=
    finds_insert fresh _
  refine ⟨h.project, ?_, h.later, h.documents.imp ?_ ?_, h.symbols.imp ?_ ?_, ?_,
    fun s r p has => (h.items s r p has).imp_right ?_, fun id i member => ?_⟩
  · exact h.sound.withRange id r (h.sound.documents _ _ home) (h.sound.symbols _ _ owner)
  · exact fun id ⟨d, member⟩ => ⟨d, by simpa using member⟩
  · exact fun _ _ fit => fit.mono inside
  · exact fun id ⟨s, member⟩ => ⟨s, by simpa using member⟩
  · exact fun _ _ fit => fit.mono inside
  · refine (h.ranges.imp (fun _ listed => listed) fun _ _ fit => ?_).push fresh h.sound.ranges
      (Nat.zero_le _) rfl ?_ ?_
    · exact fit.mono inside rfl (fun _ _ found => found) fun _ _ found => found
    · rintro id' ⟨r', member⟩
      rcases List.mem_append.1 member with old | new
      · exact .inl ⟨r', old⟩
      · exact .inr (congrArg Element.id (List.mem_singleton.1 new))
    · exact ⟨r, document, symbol, by simp, home, owner, rfl⟩
  · exact fun listed => listed.mono inside (fun _ _ found => found) finds
  · obtain ⟨symbol, owner, has⟩ := h.listed id i (by simpa using member)
    refine ⟨symbol, owner, fun inV here => ?_⟩
    obtain ⟨range, known, item⟩ := has inV here
    exact ⟨range, finds _ _ known, item⟩

theorem item (h : Follows base stream w) {i : Graph.Item} {symbol : RowId} {rows : List RowId}
    (owner : w.symbols.get? i.outV = some symbol)
    (listed : List.Forall₂ (fun id row => w.ranges.get? id = some row) i.inVs rows) :
    Follows base (stream ++ [⟨id, .item i⟩])
      (rows.foldl (withItem symbol i.property.name) w) := by
  have inside := List.subset_append_left stream [⟨id, .item i⟩]
  have sound : (rows.foldl (withItem symbol i.property.name) w).Sound :=
    h.sound.withItems (h.sound.symbols _ _ owner) (h.sound.listed listed)
  have items : ∀ s r p, (rows.foldl (withItem symbol i.property.name) w).HasItem s r p ↔
      w.HasItem s r p ∨ (s = symbol ∧ r ∈ rows ∧ p = i.property.name) :=
    fun _ _ _ => hasItem_withItems
  obtain ⟨written, pending, shape⟩ := withItems_eq symbol i.property.name w rows
  rw [shape] at items sound ⊢
  refine ⟨h.project, sound, h.later, h.documents.imp ?_ ?_, h.symbols.imp ?_ ?_,
    h.ranges.imp ?_ ?_, fun s r p has => ?_, fun id' i' member => ?_⟩
  · exact fun id ⟨d, member⟩ => ⟨d, by simpa using member⟩
  · exact fun _ _ fit => fit.mono inside
  · exact fun id ⟨s, member⟩ => ⟨s, by simpa using member⟩
  · exact fun _ _ fit => fit.mono inside
  · exact fun id ⟨r, member⟩ => ⟨r, by simpa using member⟩
  · exact fun _ _ fit => fit.mono inside rfl (fun _ _ found => found) fun _ _ found => found
  · rcases (items s r p).1 has with old | ⟨rfl, here, rfl⟩
    · exact (h.items s r p old).imp_right fun listed =>
        listed.mono inside (fun _ _ found => found) fun _ _ found => found
    · obtain ⟨inV, member, known⟩ := exists_of_forall₂ listed here
      exact .inr ⟨id, i, inV, by simp, owner, member, known, rfl⟩
  · rcases List.mem_append.1 member with old | new
    · obtain ⟨symbol', owner', has⟩ := h.listed id' i' old
      refine ⟨symbol', owner', fun inV here => ?_⟩
      obtain ⟨range, known, item⟩ := has inV here
      exact ⟨range, known, (items _ _ _).2 (.inl item)⟩
    · obtain ⟨rfl, same⟩ := Element.mk.inj (List.mem_singleton.1 new)
      obtain rfl := Graph.Body.item.inj same
      refine ⟨symbol, owner, fun inV here => ?_⟩
      obtain ⟨range, member, known⟩ := exists_of_forall₂ listed.flip here
      exact ⟨range, known, (items _ _ _).2 (.inr ⟨rfl, member, rfl⟩)⟩

/-- **One more element.** -/
theorem taking (h : Follows base stream w) {e : Element} (taking : Taking w e w')
    (fresh : ∀ old ∈ stream, old.id ≠ e.id) : Follows base (stream ++ [e]) w' := by
  have unknown : w.documents.get? e.id = none ∧ w.symbols.get? e.id = none ∧
      w.ranges.get? e.id = none := by
    refine ⟨?_, ?_, ?_⟩ <;> refine Option.eq_none_iff_forall_ne_some.2 fun n found => ?_
    · obtain ⟨-, -, -, d, member, -⟩ := h.documents.stands _ n found
      exact fresh _ member rfl
    · obtain ⟨-, -, -, s, -, -, member, -⟩ := h.symbols.stands _ n found
      exact fresh _ member rfl
    · obtain ⟨-, -, -, r, -, -, member, -⟩ := h.ranges.stands _ n found
      exact fresh _ member rfl
  have sound := h.sound.taking taking
  cases taking with
  | document => exact h.document unknown.1
  | symbol => exact h.symbol unknown.2.1
  | range home owner => exact h.range unknown.2.2 home owner
  | item owner listed => exact h.item owner listed
  | touched plain owner same linked => exact (h.touched same sound).plain plain
  | labelled plain | aside plain =>
      refine Follows.plain ?_ plain
      exact ⟨h.project, sound, h.later, h.documents, h.symbols, h.ranges, h.items, h.listed⟩
  | flushed plain => exact h.flush.plain plain

end Follows

open GraphWriter

theorem sound_counted {w : GraphWriter} (h : w.Sound) (n : Nat) :
    GraphWriter.Sound { w with written := n } :=
  ⟨h.database, h.documents, h.symbols, h.ranges, h.pending⟩

/-- The sink takes what its writer takes. -/
theorem taking_of_sink {e : Element} {w w' : GraphWriter} (taken : sink e w = .ok w') :
    ∃ u, Taking w e u ∧ w' = { u with written := u.written + 1 } := by
  have outcome : Written w e ((write e).run w) := written_write e w
  unfold sink emit at taken
  generalize (write e).run w = result at outcome taken
  cases outcome with
  | taken taking => exact ⟨_, taking, (Except.ok.inj taken).symm⟩
  | refused | broken => cases taken

/-- **A writer that has taken a stream follows it.** -/
theorem follows {base w : GraphWriter} {elements : List Element} (begun : Follows base [] base)
    (distinct : (elements.map (·.id)).Nodup) (taken : sink.Takes base elements w) :
    Follows base elements w := by
  induction elements using List.reverseRecOn generalizing w with
  | nil =>
      obtain rfl : base = w := Except.ok.inj taken
      exact begun
  | append_singleton elements e ih =>
      obtain ⟨u, before, last⟩ := Graph.takes_snoc.1 taken
      obtain ⟨v, taking, rfl⟩ := taking_of_sink last
      rw [List.map_append, List.nodup_append] at distinct
      have h := (ih distinct.1 before).taking taking fun old member same =>
        distinct.2.2 _ (List.mem_map_of_mem member) _ (by simp) same
      exact ⟨h.project, sound_counted h.sound _, h.later, h.documents, h.symbols, h.ranges,
        h.items, h.listed⟩

/-- A writer begins with nothing of its project. -/
theorem follows_start {db : Database} (sound : db.Sound) (p : Project) :
    Follows (start db p) [] (start db p) := by
  refine .start (sound_start sound p) ⟨rfl, rfl, rfl⟩ fun row member => ?_
  exact of_decide_eq_true (Array.mem_filter.1 member).2

end SymbolAtlas.Store
