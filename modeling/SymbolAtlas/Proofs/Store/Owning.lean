/-
# SymbolAtlas.Proofs.Store.Owning -- a writer owns what it has written

A writer that begins with no rows (`GraphWriter.blank`) has none but rows of its project, and they
refer to each other only (`Owning`): it finds the rows that it writes into a reference by the IDs
that it was handed before.
-/
import SymbolAtlas.Proofs.Store.Parting
import SymbolAtlas.Proofs.Store.Writing

set_option autoImplicit false

namespace SymbolAtlas.Store

open SymbolAtlas.Graph (Id Element)

namespace Database

/-- All rows are those of a project. -/
structure Only (db : Database) (project : String) : Prop where
  documents : ∀ d ∈ db.documents, d.project = project
  symbols : ∀ s ∈ db.symbols, s.project = project
  ranges : ∀ r ∈ db.ranges, r.project = project
  items : ∀ i ∈ db.items, i.project = project
  monikers : ∀ m ∈ db.monikers, m.project = project

/-- The rows that stand in a database stand in another, whatever they say. -/
structure Keeps (db db' : Database) : Prop where
  document : ∀ {project id}, db.HasDocument project id → db'.HasDocument project id
  symbol : ∀ {project id}, db.HasSymbol project id → db'.HasSymbol project id
  range : ∀ {project id}, db.HasRange project id → db'.HasRange project id

theorem Keeps.of_subset {db db' : Database} (documents : ∀ d ∈ db.documents, d ∈ db'.documents)
    (symbols : ∀ s ∈ db.symbols, s ∈ db'.symbols) (ranges : ∀ r ∈ db.ranges, r ∈ db'.ranges) :
    db.Keeps db' where
  document := fun ⟨d, member, same⟩ => ⟨d, documents d member, same⟩
  symbol := fun ⟨s, member, same⟩ => ⟨s, symbols s member, same⟩
  range := fun ⟨r, member, same⟩ => ⟨r, ranges r member, same⟩

/-- References that lead somewhere lead there in a database that keeps the rows. -/
theorem Closed.keep {db db' : Database} (closed : db.Closed) (keeps : db.Keeps db')
    (ranges : ∀ r ∈ db'.ranges, r ∈ db.ranges ∨
      (db'.HasDocument r.project r.document ∧ db'.HasSymbol r.project r.symbol))
    (items : ∀ i ∈ db'.items, i ∈ db.items ∨
      (db'.HasSymbol i.project i.symbol ∧ db'.HasRange i.project i.range))
    (monikers : ∀ m ∈ db'.monikers, m ∈ db.monikers ∨ db'.HasSymbol m.project m.symbol)
    (aliases : ∀ s ∈ db'.symbols, ∀ target, s.aliasOf = some target →
      (∃ t ∈ db.symbols, t.project = s.project ∧ t.aliasOf = some target) ∨
        db'.HasSymbol s.project target) : db'.Closed where
  ranges r member := (ranges r member).elim
    (fun old => ⟨keeps.document (closed.ranges r old).1, keeps.symbol (closed.ranges r old).2⟩) id
  items i member := (items i member).elim
    (fun old => ⟨keeps.symbol (closed.items i old).1, keeps.range (closed.items i old).2⟩) id
  monikers m member := (monikers m member).elim (fun old => keeps.symbol (closed.monikers m old)) id
  aliases s member target link := (aliases s member target link).elim
    (fun ⟨t, old, own, link⟩ => own ▸ keeps.symbol (closed.aliases t old target link)) id

end Database

namespace GraphWriter

/-- A writer without rows. -/
def blank (project : String) : GraphWriter := { database := {}, project }

/-- All rows of a writer are those of its project, and all that it knows leads to one of them.
No symbol has the number zero. -/
structure Owning (w : GraphWriter) : Prop where
  only : w.database.Only w.project
  closed : w.database.Closed
  documents : w.documents.All fun _ row => w.database.HasDocument w.project row
  symbols : w.symbols.All fun _ row => 0 < row ∧ w.database.HasSymbol w.project row
  ranges : w.ranges.All fun _ row => w.database.HasRange w.project row
  pending : ∀ i ∈ w.pending, i.project = w.project ∧ 0 < i.symbol ∧
    w.database.HasSymbol w.project i.symbol ∧ w.database.HasRange w.project i.range

theorem owning_blank (project : String) : (blank project).Owning where
  only := ⟨by simp [blank], by simp [blank], by simp [blank], by simp [blank], by simp [blank]⟩
  closed := ⟨by simp [blank], by simp [blank], by simp [blank], by simp [blank]⟩
  documents := Table.all_empty _
  symbols := Table.all_empty _
  ranges := Table.all_empty _
  pending := by simp [blank]

namespace Owning

variable {w w' : GraphWriter}

theorem document (h : w.Owning) (id : Id) (d : Graph.Document) :
    (w.withDocument id d).Owning := by
  have keeps : w.database.Keeps (w.withDocument id d).database :=
    .of_subset (fun _ old => Array.mem_push_of_mem _ old) (fun _ old => old) fun _ old => old
  refine ⟨⟨fun row member => ?_, h.only.symbols, h.only.ranges, h.only.items, h.only.monikers⟩,
    h.closed.keep keeps (fun _ old => .inl old) (fun _ old => .inl old) (fun _ old => .inl old)
      (fun s old target link => .inl ⟨s, old, rfl, link⟩), ?_, ?_, ?_, fun i waits => ?_⟩
  · rcases Array.mem_push.1 member with old | rfl
    · exact h.only.documents row old
    · rfl
  · exact (h.documents.imp fun _ _ _ known => keeps.document known).insert
      ⟨_, Array.mem_push_self, rfl, rfl⟩
  · exact h.symbols.imp fun _ _ _ known => ⟨known.1, keeps.symbol known.2⟩
  · exact h.ranges.imp fun _ _ _ known => keeps.range known
  · obtain ⟨own, positive, symbol, range⟩ := h.pending i waits
    exact ⟨own, positive, keeps.symbol symbol, keeps.range range⟩

theorem symbol (h : w.Owning) (id : Id) (s : Graph.ResultSet) : (w.withSymbol id s).Owning := by
  have keeps : w.database.Keeps (w.withSymbol id s).database :=
    .of_subset (fun _ old => old) (fun _ old => Array.mem_push_of_mem _ old) fun _ old => old
  refine ⟨⟨h.only.documents, fun row member => ?_, h.only.ranges, h.only.items, h.only.monikers⟩,
    h.closed.keep keeps (fun _ old => .inl old) (fun _ old => .inl old) (fun _ old => .inl old)
      (fun row member target link => ?_), ?_, ?_, ?_, fun i waits => ?_⟩
  · rcases Array.mem_push.1 member with old | rfl
    · exact h.only.symbols row old
    · rfl
  · rcases Array.mem_push.1 member with old | rfl
    · exact .inl ⟨row, old, rfl, link⟩
    · cases link
  · exact h.documents.imp fun _ _ _ known => keeps.document known
  · exact (h.symbols.imp fun _ _ _ known => ⟨known.1, keeps.symbol known.2⟩).insert
      ⟨Nat.succ_pos _, _, Array.mem_push_self, rfl, rfl⟩
  · exact h.ranges.imp fun _ _ _ known => keeps.range known
  · obtain ⟨own, positive, symbol, range⟩ := h.pending i waits
    exact ⟨own, positive, keeps.symbol symbol, keeps.range range⟩

theorem range (h : w.Owning) (id : Id) {document symbol : RowId} (r : Graph.Range)
    (home : w.database.HasDocument w.project document)
    (owner : w.database.HasSymbol w.project symbol) :
    (w.withRange id document symbol r).Owning := by
  have keeps : w.database.Keeps (w.withRange id document symbol r).database :=
    .of_subset (fun _ old => old) (fun _ old => old) fun _ old => Array.mem_push_of_mem _ old
  refine ⟨⟨h.only.documents, h.only.symbols, fun row member => ?_, h.only.items, h.only.monikers⟩,
    h.closed.keep keeps (fun row member => ?_) (fun _ old => .inl old) (fun _ old => .inl old)
      (fun s old target link => .inl ⟨s, old, rfl, link⟩), ?_, ?_, ?_, fun i waits => ?_⟩
  · rcases Array.mem_push.1 member with old | rfl
    · exact h.only.ranges row old
    · rfl
  · rcases Array.mem_push.1 member with old | rfl
    · exact .inl old
    · exact .inr ⟨keeps.document home, keeps.symbol owner⟩
  · exact h.documents.imp fun _ _ _ known => keeps.document known
  · exact h.symbols.imp fun _ _ _ known => ⟨known.1, keeps.symbol known.2⟩
  · exact (h.ranges.imp fun _ _ _ known => keeps.range known).insert
      ⟨_, Array.mem_push_self, rfl, rfl⟩
  · obtain ⟨own, positive, symbol, range⟩ := h.pending i waits
    exact ⟨own, positive, keeps.symbol symbol, keeps.range range⟩

theorem moniker (h : w.Owning) {symbol : RowId} (m : Moniker)
    (owner : w.database.HasSymbol w.project symbol) : (w.withMoniker symbol m).Owning := by
  have keeps : w.database.Keeps (w.withMoniker symbol m).database :=
    .of_subset (fun _ old => old) (fun _ old => old) fun _ old => old
  refine ⟨⟨h.only.documents, h.only.symbols, h.only.ranges, h.only.items, fun row member => ?_⟩,
    h.closed.keep keeps (fun _ old => .inl old) (fun _ old => .inl old) (fun row member => ?_)
      (fun s old target link => .inl ⟨s, old, rfl, link⟩), h.documents, h.symbols, h.ranges,
    h.pending⟩
  · rcases Array.mem_push.1 member with old | rfl
    · exact h.only.monikers row old
    · rfl
  · rcases Array.mem_push.1 member with old | rfl
    · exact .inl old
    · exact .inr owner

theorem touched (h : w.Owning) {symbol : RowId} {f : SymbolRow → SymbolRow}
    (same : ∀ s, ∃ hover aliasOf, f s = { s with hover, aliasOf })
    (linked : ∀ s, (f s).aliasOf = s.aliasOf ∨
      ∃ id target, w.symbols.get? id = some target ∧ (f s).aliasOf = some target) :
    Owning { w with database := w.database.modifySymbol symbol f } := by
  have kept : ∀ s, (f s).id = s.id ∧ (f s).project = s.project := fun s => by
    obtain ⟨_, _, shape⟩ := same s
    rw [shape]
    exact ⟨rfl, rfl⟩
  have keeps : w.database.Keeps (w.database.modifySymbol symbol f) := by
    refine ⟨fun has => has, fun {project id} has => ?_, fun has => has⟩
    obtain ⟨s, member, rfl, own⟩ := has
    refine ⟨_, Array.mem_map_of_mem member, ?_⟩
    split
    · exact ⟨(kept s).1, (kept s).2.trans own⟩
    · exact ⟨rfl, own⟩
  refine ⟨⟨h.only.documents, fun row member => ?_, h.only.ranges, h.only.items, h.only.monikers⟩,
    h.closed.keep keeps (fun _ old => .inl old) (fun _ old => .inl old) (fun _ old => .inl old)
      (fun row member target link => ?_), h.documents, ?_, h.ranges, fun i waits => ?_⟩
  · obtain ⟨s, old, rfl⟩ := Array.mem_map.1 member
    split
    · exact (kept s).2.trans (h.only.symbols s old)
    · exact h.only.symbols s old
  · obtain ⟨s, old, rfl⟩ := Array.mem_map.1 member
    split at link
    · rename_i here
      rcases linked s with before | ⟨id, target', known, now⟩
      · refine .inl ⟨s, old, ?_, before ▸ link⟩
        rw [if_pos here]
        exact (kept s).2.symm
      · obtain rfl : target' = target := Option.some.inj (now.symm.trans link)
        refine .inr ?_
        rw [if_pos here, (kept s).2, h.only.symbols s old]
        exact keeps.symbol (h.symbols id target' known).2
    · rename_i other
      exact .inl ⟨s, old, by rw [if_neg other], link⟩
  · exact h.symbols.imp fun _ _ _ known => ⟨known.1, keeps.symbol known.2⟩
  · obtain ⟨own, positive, symbol, range⟩ := h.pending i waits
    exact ⟨own, positive, keeps.symbol symbol, range⟩

theorem flush (h : w.Owning) : w.flush.Owning := by
  rw [flush_eq]
  refine ⟨⟨h.only.documents, h.only.symbols, h.only.ranges, fun i member => ?_, h.only.monikers⟩,
    ⟨h.closed.ranges, fun i member => ?_, h.closed.monikers, h.closed.aliases⟩, h.documents,
    h.symbols, h.ranges, by simp⟩
  · rcases mem_foldl_standing member with old | waits
    · exact h.only.items i old
    · exact (h.pending i (Array.mem_toList_iff.1 waits)).1
  · rcases mem_foldl_standing member with old | waits
    · exact h.closed.items i old
    · obtain ⟨own, -, symbol, range⟩ := h.pending i (Array.mem_toList_iff.1 waits)
      exact ⟨own ▸ symbol, own ▸ range⟩

theorem item (h : w.Owning) {symbol range : RowId} (property : String)
    (owner : 0 < symbol ∧ w.database.HasSymbol w.project symbol)
    (given : w.database.HasRange w.project range) : (withItem symbol property w range).Owning := by
  have collected : Owning
      { w with pending := w.pending.push ⟨w.project, symbol, range, property⟩ } := by
    refine ⟨h.only, h.closed, h.documents, h.symbols, h.ranges, fun i member => ?_⟩
    rcases Array.mem_push.1 member with old | rfl
    · exact h.pending i old
    · exact ⟨rfl, owner.1, owner.2, given⟩
  simp only [withItem]
  split
  · exact collected.flush
  · exact collected

theorem items (h : w.Owning) {set_ : Id} {symbol : RowId} {property : String} {rows : List RowId}
    (owner : w.symbols.get? set_ = some symbol)
    (known : ∀ row ∈ rows, ∃ id, w.ranges.get? id = some row) :
    (rows.foldl (withItem symbol property) w).Owning := by
  induction rows generalizing w with
  | nil => exact h
  | cons row rows ih =>
      obtain ⟨id, found⟩ := known row List.mem_cons_self
      obtain ⟨_, _, shape⟩ := withItem_eq symbol property w row
      refine ih (h.item property (h.symbols _ _ owner) (h.ranges _ _ found)) ?_ fun other later => ?_
      · rw [shape]
        exact owner
      · rw [shape]
        exact known other (List.mem_cons_of_mem _ later)

/-- What an item edge lists is known. -/
theorem known_of_listed {ids : List Id} {rows : List RowId} {row : RowId}
    (listed : List.Forall₂ (fun id row => w.ranges.get? id = some row) ids rows)
    (member : row ∈ rows) : ∃ id, w.ranges.get? id = some row := by
  obtain ⟨id, -, known⟩ := exists_of_forall₂ listed member
  exact ⟨id, known⟩

/-- **A writer owns what it has written.** -/
theorem taking (h : w.Owning) {e : Element} (taking : Taking w e w') : w'.Owning := by
  cases taking with
  | document => exact h.document _ _
  | symbol => exact h.symbol _ _
  | range home owner => exact h.range _ _ (h.documents _ _ home) (h.symbols _ _ owner).2
  | item owner listed => exact h.items owner fun _ member => known_of_listed listed member
  | touched plain owner same linked => exact h.touched same linked
  | labelled plain owner => exact h.moniker _ (h.symbols _ _ owner).2
  | aside plain => exact ⟨h.only, h.closed, h.documents, h.symbols, h.ranges, h.pending⟩
  | flushed plain => exact h.flush

theorem emit (h : w.Owning) (e : Element) : (w.emit e).2.Owning := by
  have outcome : Written w e ((write e).run w) := written_write e w
  unfold GraphWriter.emit
  generalize (write e).run w = result at outcome
  rcases outcome with taking | refusal | ⟨owner, listed⟩
  · have owning := h.taking taking
    exact ⟨owning.only, owning.closed, owning.documents, owning.symbols, owning.ranges,
      owning.pending⟩
  · exact h
  · exact h.items owner fun _ member => known_of_listed listed member

theorem emits (h : w.Owning) (elements : List Element) :
    (elements.foldl (fun w e => (w.emit e).2) w).Owning := by
  induction elements generalizing w with
  | nil => exact h
  | cons e elements ih => exact ih (h.emit e)

end Owning
end GraphWriter
end SymbolAtlas.Store
