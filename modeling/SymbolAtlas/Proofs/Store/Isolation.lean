/-
# SymbolAtlas.Proofs.Store.Isolation -- projects share a store and nothing else

What is done to a project (`Operates`) leaves the rows, the digests and the record of every other
as they are (`Database.Spares`), so it leaves every answer about them (`Echoes`).  A database that
a store can come to is closed, because each operation keeps it so (`Database.Reached.closed`).

What a program comes to in a store with other projects, or with an older graph of its own, is what
it comes to in a store without any, with the rows numbered from elsewhere on.
-/
import SymbolAtlas.Proofs.Store.Acceptance
import SymbolAtlas.Proofs.Store.Hashes
import SymbolAtlas.Proofs.Store.Placing

set_option autoImplicit false

namespace SymbolAtlas.Store

open SymbolAtlas.Graph (Element)
open Text (Position)

/-! ## Operations on a project -/

namespace Database

/-- A change for a project keeps references among rows of one project, and leaves what the
others have. -/
structure Spares (p : String) (db db' : Database) : Prop where
  sound : db'.Sound
  closed : db'.Closed
  graph : ∀ q, q ≠ p → db'.graphOf q = db.graphOf q
  hashes : ∀ q, q ≠ p → hashesOf db'.hashes q = hashesOf db.hashes q
  projects : ∀ q, q ≠ p → db'.projects.get? q = db.projects.get? q

section Operations

variable {db : Database} {p : String}

theorem Spares.trans {db' db'' : Database} (first : Spares p db db') (second : Spares p db' db'') :
    Spares p db db'' where
  sound := second.sound
  closed := second.closed
  graph q other := (second.graph q other).trans (first.graph q other)
  hashes q other := (second.hashes q other).trans (first.hashes q other)
  projects q other := (second.projects q other).trans (first.projects q other)

variable (closed : db.Closed) (sound : db.Sound)

include closed sound

theorem spares_upsert (record : Project) : Spares record.name db (db.upsert record) where
  sound := sound.upsert record
  closed := ⟨closed.ranges, closed.items, closed.monikers, closed.aliases⟩
  graph _ _ := rfl
  hashes _ _ := rfl
  projects q other := by rw [upsert, Table.get?_insert, if_neg (Ne.symm other)]

theorem spares_clearGraph (p : String) : Spares p db (db.clearGraph p) where
  sound := sound.clearGraph p
  closed := closed.clearGraph sound p
  graph _ other := closed.graphOf_clearGraph sound other
  hashes _ _ := rfl
  projects _ _ := rfl

theorem spares_replaceHashes {hashes : List (String × String)} {db' : Database}
    (replaced : db.replaceHashes p hashes = .ok db') : Spares p db db' where
  sound := sound.replaceHashes replaced
  closed := by
    obtain rfl := replaceHashes_eq replaced
    exact ⟨closed.ranges, closed.items, closed.monikers, closed.aliases⟩
  graph _ _ := by
    obtain rfl := replaceHashes_eq replaced
    rfl
  hashes := (hashesOf_replaceHashes replaced).2
  projects _ _ := by
    obtain rfl := replaceHashes_eq replaced
    rfl

theorem spares_removeProject (p : String) : Spares p db (db.removeProject p) where
  sound := sound.removeProject p
  closed :=
    have cleared := closed.clearGraph sound p
    ⟨cleared.ranges, cleared.items, cleared.monikers, cleared.aliases⟩
  graph _ other := closed.graphOf_clearGraph sound other
  hashes _ other := hashesOf_filter_of_ne other
  projects _ other := (Table.get?_erase ..).trans (if_neg other)

/-- The rows of other projects, beside which a writer writes. -/
theorem spares_beside (record : Project) {own : Database} (only : own.Only record.name)
    (inner : own.Closed)
    (sound' : (((db.upsert record).clearGraph record.name).beside own).Sound) :
    Spares record.name db (((db.upsert record).clearGraph record.name).beside own) :=
  have recorded := spares_upsert closed sound record
  have cleared := recorded.trans (spares_clearGraph recorded.closed recorded.sound record.name)
  { sound := sound'
    closed := cleared.closed.beside inner
    graph := fun q other => (graphOf_beside_of_ne only other).trans (cleared.graph q other)
    hashes := cleared.hashes
    projects := cleared.projects }

end Operations

end Database

/-! ## Writing a graph -/

/-- What elements come to in a project of a store, whether the writer takes or refuses them. -/
def Database.written (db : Database) (record : Project) (elements : List Element) : GraphWriter :=
  elements.foldl (fun w e => (w.emit e).2) (.start db record)

/-- What they come to without any rows. -/
def ownRows (project : String) (elements : List Element) : GraphWriter :=
  elements.foldl (fun w e => (w.emit e).2) (.blank project)

/-- A writer that owns its rows, for a project with a name. -/
theorem owning_ownRows (project : String) (elements : List Element) :
    (ownRows project elements).Owning ∧ (ownRows project elements).project = project :=
  ⟨(GraphWriter.owning_blank project).emits elements, GraphWriter.project_emits _ elements⟩

theorem only_ownRows (project : String) (elements : List Element) :
    (ownRows project elements).database.Only project ∧
      (ownRows project elements).flush.database.Only project := by
  obtain ⟨owning, own⟩ := owning_ownRows project elements
  have only := owning.only
  have flushed := owning.flush.only
  rw [own] at only
  rw [show (ownRows project elements).flush.project = project from own] at flushed
  exact ⟨only, flushed⟩

namespace Database

section Written

variable {db : Database} (sound : db.Sound) (record : Project) (elements : List Element)

include sound

/-- **Whatever stands in a store, a writer writes the same rows.** -/
theorem written_eq : db.written record elements =
    (ownRows record.name elements).beside ((db.upsert record).clearGraph record.name) := by
  rw [written, GraphWriter.start_eq]
  exact GraphWriter.emits_beside ((sound.upsert record).clearGraph record.name)
    (vacant_clearGraph _ _).documents (GraphWriter.owning_blank _) elements

theorem flush_written : (db.written record elements).flush.database =
    ((db.upsert record).clearGraph record.name).beside
      (ownRows record.name elements).flush.database := by
  obtain ⟨owning, -⟩ := owning_ownRows record.name elements
  rw [written_eq sound, ← GraphWriter.flush_beside ((sound.upsert record).clearGraph record.name)
    fun i waits => (owning.pending i waits).2.1]
  rfl

theorem sound_written : (db.written record elements).database.Sound ∧
    (db.written record elements).flush.database.Sound :=
  have written := (GraphWriter.sound_start sound record).emits elements
  ⟨written.database, written.flush.database⟩

variable (closed : db.Closed)

include closed

theorem spares_written : Spares record.name db (db.written record elements).database := by
  have sound' := (sound_written sound record elements).1
  rw [written_eq sound] at sound' ⊢
  exact spares_beside closed sound record (only_ownRows record.name elements).1
    (owning_ownRows record.name elements).1.closed sound'

theorem spares_indexed : Spares record.name db (db.written record elements).flush.database := by
  have sound' := (sound_written sound record elements).2
  rw [flush_written sound] at sound' ⊢
  exact spares_beside closed sound record (only_ownRows record.name elements).2
    (owning_ownRows record.name elements).1.flush.closed sound'

end Written

/-- **Every database that a store can come to is closed.** -/
theorem Reached.closed {db : Database} (h : db.Reached) : db.Closed := by
  induction h with
  | empty => exact ⟨by simp, by simp, by simp, by simp⟩
  | upsert before record ih => exact (spares_upsert ih before.sound record).closed
  | clearGraph before p ih => exact (spares_clearGraph ih before.sound p).closed
  | removeProject before p ih => exact (spares_removeProject ih before.sound p).closed
  | replaceHashes before replaced ih => exact (spares_replaceHashes ih before.sound replaced).closed
  | forgetLibraries _ ih =>
      refine ⟨fun r member => ⟨?_, (ih.ranges r member).2⟩, ih.items, ih.monikers, ih.aliases⟩
      obtain ⟨d, inside, number, home⟩ := (ih.ranges r member).1
      exact ⟨_, Array.mem_map_of_mem inside, number, home⟩
  | written before record elements ih => exact (spares_written before.sound record elements ih).closed
  | indexed before record elements ih => exact (spares_indexed before.sound record elements ih).closed

end Database

/-! ## Answers -/

/-- A store says of a project what another says, with other numbers for its symbols: it finds the
same symbols, and the same of each of them. -/
structure Echoes (q : String) (f : SymbolRow → SymbolRow) (s s' : Store) : Prop where
  project : s'.project q = s.project q
  symbols : s'.database.symbols.filter (·.project = q) =
    (s.database.symbols.filter (·.project = q)).map f
  symbolAt : ∀ path position, s'.symbolAt q path position = (s.symbolAt q path position).map f
  definitionsAt : ∀ path position,
    s'.definitionsAt q path position = s.definitionsAt q path position
  referencesAt : ∀ path position withDeclaration,
    s'.referencesAt q path position withDeclaration = s.referencesAt q path position withDeclaration
  hoverAt : ∀ path position, s'.hoverAt q path position = s.hoverAt q path position
  definitions : ∀ row ∈ s.database.symbols, row.project = q →
    s'.database.definitions (f row) = s.database.definitions row
  references : ∀ row ∈ s.database.symbols, row.project = q → ∀ withDeclaration,
    s'.database.references (f row) withDeclaration = s.database.references row withDeclaration
  monikersOf : ∀ row ∈ s.database.symbols, row.project = q →
    s'.database.monikersOf (f row) = s.database.monikersOf row
  symbolsByMoniker : ∀ identifier,
    (s'.symbolsByMoniker identifier).map (List.filter fun found => found.symbol.project = q) =
      (s.symbolsByMoniker identifier).map fun matches_ =>
        (matches_.filter fun found => found.symbol.project = q).map fun found =>
          { found with symbol := f found.symbol }
  summary : s'.summary q = s.summary q

theorem Echoes.refl (q : String) (s : Store) : Echoes q id s s where
  project := rfl
  symbols := (Array.map_id _).symm
  symbolAt path position := by cases s.symbolAt q path position <;> rfl
  definitionsAt _ _ := rfl
  referencesAt _ _ _ := rfl
  hoverAt _ _ := rfl
  definitions _ _ _ := rfl
  references _ _ _ _ := rfl
  monikersOf _ _ _ := rfl
  symbolsByMoniker identifier := by
    cases s.symbolsByMoniker identifier <;> simp [Except.map]
  summary := rfl

/-- What is echoed without other numbers is echoed on. -/
theorem Echoes.trans {q : String} {f : SymbolRow → SymbolRow} {s s' s'' : Store}
    (first : Echoes q f s s') (second : Echoes q id s' s'') : Echoes q f s s'' := by
  have there {row : SymbolRow} (member : row ∈ s.database.symbols) (own : row.project = q) :
      f row ∈ s'.database.symbols ∧ (f row).project = q := by
    have inside : row ∈ s.database.symbols.filter (·.project = q) :=
      Array.mem_filter.2 ⟨member, decide_eq_true own⟩
    obtain ⟨here, home⟩ := Array.mem_filter.1 (first.symbols ▸ Array.mem_map_of_mem inside)
    exact ⟨here, of_decide_eq_true home⟩
  refine ⟨second.project.trans first.project, ?_, fun path position => ?_,
    fun path position => (second.definitionsAt path position).trans (first.definitionsAt _ _),
    fun path position declared =>
      (second.referencesAt path position declared).trans (first.referencesAt _ _ _),
    fun path position => (second.hoverAt path position).trans (first.hoverAt _ _),
    fun row member own => ?_, fun row member own declared => ?_, fun row member own => ?_,
    fun identifier => ?_, second.summary.trans first.summary⟩
  · rw [second.symbols, Array.map_id, first.symbols]
  · rw [second.symbolAt, first.symbolAt]
    cases s.symbolAt q path position <;> rfl
  · obtain ⟨member', own'⟩ := there member own
    exact (second.definitions _ member' own').trans (first.definitions row member own)
  · obtain ⟨member', own'⟩ := there member own
    exact (second.references _ member' own' declared).trans
      (first.references row member own declared)
  · obtain ⟨member', own'⟩ := there member own
    exact (second.monikersOf _ member' own').trans (first.monikersOf row member own)
  · rw [second.symbolsByMoniker, ← first.symbolsByMoniker]
    cases s'.symbolsByMoniker identifier <;> simp [Except.map]

section Answers

variable {s s' : Store} {q : String} {k : Offset}

/-- A symbol that is found in a document of a project is one of the project. -/
theorem Database.Closed.of_symbolAt? {db : Database} (closed : db.Closed) (sound : db.Sound)
    {path : String} {position : Position} {row : SymbolRow}
    (found : db.symbolAt? q path position = some row) : row ∈ db.symbols ∧ row.project = q := by
  rw [← closed.symbolAt? sound, Database.symbolAt?] at found
  obtain ⟨r, -, here⟩ := Option.bind_eq_some_iff.1 found
  exact Database.mem_graphOf_symbols.1 (Array.mem_of_find?_eq_some here)

theorem symbolAt_eq (s : Store) (q path : String) (position : Position) :
    s.symbolAt q path position = (s.ask "symbol at").bind fun db =>
      match db.symbolAt? q path position with
      | some row => .ok row
      | none => .error (.notFound (positionName q path position)) := rfl

theorem of_ask {operation : String} {db : Database} (asked : s.ask operation = .ok db) :
    s.isOpen = true ∧ s.database = db := by
  unfold Store.ask at asked
  split at asked
  · exact ⟨‹_›, Except.ok.inj asked⟩
  · cases asked

/-- What a store finds at a position is what its rows say. -/
theorem symbolAt?_of_symbolAt {path : String} {position : Position} {row : SymbolRow}
    (found : s.symbolAt q path position = .ok row) :
    s.database.symbolAt? q path position = some row := by
  rw [symbolAt_eq] at found
  cases asked : s.ask "symbol at" with
  | error reason =>
      rw [asked] at found
      cases found
  | ok db =>
      obtain ⟨-, rfl⟩ := of_ask asked
      rw [asked] at found
      simp only [Except.bind] at found
      split at found
      · rename_i here
        rw [here, Except.ok.inj found]
      · cases found

/-- **A store answers about a project from its rows.** -/
theorem Echoes.of_graphOf (sound : s.database.Sound) (closed : s.database.Closed)
    (sound' : s'.database.Sound) (closed' : s'.database.Closed) (isOpen : s'.isOpen = s.isOpen)
    (project : s'.project q = s.project q)
    (graph : s'.database.graphOf q = (s.database.graphOf q).moved k) :
    Echoes q (·.moved k) s s' := by
  have symbols : s'.database.symbols.filter (·.project = q) =
      (s.database.symbols.filter (·.project = q)).map (·.moved k) :=
    congrArg Database.symbols graph
  have there {row : SymbolRow} (member : row ∈ s.database.symbols) (own : row.project = q) :
      row.moved k ∈ s'.database.symbols ∧ (row.moved k).project = q := by
    have inside : row ∈ s.database.symbols.filter (·.project = q) :=
      Array.mem_filter.2 ⟨member, decide_eq_true own⟩
    obtain ⟨here, home⟩ := Array.mem_filter.1 (symbols ▸ Array.mem_map_of_mem inside)
    exact ⟨here, of_decide_eq_true home⟩
  have definitions {row : SymbolRow} (member : row ∈ s.database.symbols) (own : row.project = q) :
      s'.database.definitions (row.moved k) = s.database.definitions row := by
    obtain ⟨member', own'⟩ := there member own
    rw [← closed'.definitions sound' member' own', graph, Database.definitions_moved,
      closed.definitions sound member own]
  have references {row : SymbolRow} (member : row ∈ s.database.symbols) (own : row.project = q)
      (withDeclaration : Bool) : s'.database.references (row.moved k) withDeclaration =
        s.database.references row withDeclaration := by
    obtain ⟨member', own'⟩ := there member own
    rw [← closed'.references sound' member' own', graph, Database.references_moved,
      closed.references sound member own]
  have symbolAt (path : String) (position : Position) :
      s'.symbolAt q path position = (s.symbolAt q path position).map (·.moved k) := by
    have same : s'.database.symbolAt? q path position =
        (s.database.symbolAt? q path position).map (·.moved k) := by
      rw [← closed'.symbolAt? sound', graph, Database.symbolAt?_moved, closed.symbolAt? sound]
    simp only [symbolAt_eq, Store.ask, isOpen]
    split
    · simp only [Except.bind, same]
      cases s.database.symbolAt? q path position <;> rfl
    · rfl
  have own {path : String} {position : Position} {row : SymbolRow}
      (found : s.symbolAt q path position = .ok row) : row ∈ s.database.symbols ∧ row.project = q :=
    closed.of_symbolAt? sound (symbolAt?_of_symbolAt found)
  refine ⟨project, symbols, symbolAt, fun path position => ?_, fun path position declared => ?_,
    fun path position => ?_, fun _ => definitions, fun _ => references,
    fun row member home => ?_, fun identifier => ?_, ?_⟩
  · rw [Store.definitionsAt, Store.definitionsAt, symbolAt]
    cases found : s.symbolAt q path position with
    | error => rfl
    | ok row => exact congrArg Except.ok (definitions (own found).1 (own found).2)
  · rw [Store.referencesAt, Store.referencesAt, symbolAt]
    cases found : s.symbolAt q path position with
    | error => rfl
    | ok row => exact congrArg Except.ok (references (own found).1 (own found).2 declared)
  · rw [Store.hoverAt, Store.hoverAt, symbolAt]
    cases found : s.symbolAt q path position with
    | error => rfl
    | ok row =>
        obtain ⟨member, home⟩ := own found
        obtain ⟨member', home'⟩ := there member home
        have source : s'.database.hoverSource Database.aliasHops (row.moved k) =
            (s.database.hoverSource Database.aliasHops row).moved k := by
          rw [← closed'.hoverSource sound' _ member' home', graph, Database.hoverSource_moved,
            closed.hoverSource sound _ member home]
        simp only [Except.map, bind, Except.bind, source]
        rfl
  · obtain ⟨member', home'⟩ := there member home
    rw [← closed'.monikersOf sound' member' home', graph, Database.monikersOf_moved,
      closed.monikersOf sound member home]
  · have same : (s'.database.graphOf q).byMoniker identifier = _ :=
      closed'.byMoniker sound' identifier
    rw [graph, Database.byMoniker_moved, closed.byMoniker sound] at same
    simp only [Store.symbolsByMoniker, Store.ask, isOpen]
    split
    · exact congrArg Except.ok same.symm
    · rfl
  · have same : s'.database.summary q = s.database.summary q := by
      rw [← Database.Closed.summary, graph, Database.summary_moved, Database.Closed.summary]
    rw [Store.summary, Store.summary, project, same]

end Answers

/-! ## Stores -/

/-- What can be done to a project of a store. -/
inductive Operates (p : String) (s : Store) : Store → Prop where
  | recorded {record : Project} {s' : Store} (named : record.name = p)
      (done : s.upsertProject record = .ok s') : Operates p s s'
  | digested {hashes : List (String × String)} {s' : Store}
      (done : s.replaceFileHashes p hashes = .ok s') : Operates p s s'
  | deleted {s' : Store} (done : s.deleteProject p = .ok s') : Operates p s s'
  | cleared {s' : Store} (done : s.clearGraph p = .ok s') : Operates p s s'
  /-- Elements are written in one transaction, whether they are taken or refused. -/
  | indexed {record : Project} {s' : Store} (named : record.name = p) (elements : List Element)
      (done : s.transaction id (fun db => .ok ((), (db.written record elements).flush.database)) =
        .ok ((), s')) : Operates p s s'

section Operations

variable {s s' : Store} {p q : String}

/-- A change of an open store. -/
theorem of_change {operation : String} (change : Database → Except StoreError Database)
    (done : (s.ask operation).bind (fun db => (change db).map fun db =>
      ({ s with database := db } : Store)) = .ok s') :
    s.isOpen = true ∧ ∃ db, change s.database = .ok db ∧ s' = { s with database := db } := by
  cases asked : s.ask operation with
  | error reason =>
      rw [asked] at done
      cases done
  | ok db =>
      obtain ⟨isOpen, rfl⟩ := of_ask asked
      rw [asked] at done
      simp only [Except.bind] at done
      cases changed : change s.database with
      | error reason =>
          rw [changed] at done
          cases done
      | ok db =>
          rw [changed] at done
          exact ⟨isOpen, db, rfl, (Except.ok.inj done).symm⟩

theorem of_deleteProject (done : s.deleteProject p = .ok s') :
    s.isOpen = true ∧ s' = { s with database := s.database.removeProject p } := by
  cases asked : s.ask "delete project" with
  | error reason =>
      rw [deleteProject, asked] at done
      cases done
  | ok db =>
      obtain ⟨isOpen, rfl⟩ := of_ask asked
      rw [deleteProject, asked] at done
      simp only [bind, Except.bind] at done
      split at done
      · exact ⟨isOpen, (Except.ok.inj done).symm⟩
      · cases done

theorem of_replaceFileHashes {hashes : List (String × String)}
    (done : s.replaceFileHashes p hashes = .ok s') :
    s.isOpen = true ∧ ∃ db, s.database.replaceHashes p hashes = .ok db ∧
      s' = { s with database := db } :=
  of_change (fun db => db.replaceHashes p hashes) (by
    rw [← done, replaceFileHashes]
    rfl)

/-- A change that cannot fail, in an open store. -/
theorem of_indexing {change : Database → Database}
    (done : s.transaction id (fun db => .ok ((), change db)) = .ok ((), s')) :
    s.isOpen = true ∧ s' = { s with database := change s.database } := by
  cases asked : s.ask "begin tx" with
  | error reason =>
      rw [transaction, asked] at done
      cases done
  | ok db =>
      obtain ⟨isOpen, rfl⟩ := of_ask asked
      rw [transaction, asked] at done
      exact ⟨isOpen, (Prod.mk.inj (Except.ok.inj done)).2.symm⟩

/-- **What is done to a project spares the others.** -/
theorem Operates.spares (operates : Operates p s s') (sound : s.database.Sound)
    (closed : s.database.Closed) :
    s.isOpen = true ∧ s'.isOpen = true ∧ Database.Spares p s.database s'.database := by
  cases operates with
  | @recorded record _ named done =>
      obtain ⟨isOpen, _, changed, rfl⟩ := of_change (fun db => .ok (db.upsert record)) done
      obtain rfl := Except.ok.inj changed
      exact ⟨isOpen, isOpen, named ▸ Database.spares_upsert closed sound record⟩
  | @digested hashes _ done =>
      obtain ⟨isOpen, _, replaced, rfl⟩ := of_replaceFileHashes done
      exact ⟨isOpen, isOpen, Database.spares_replaceHashes closed sound replaced⟩
  | deleted done =>
      obtain ⟨isOpen, rfl⟩ := of_deleteProject done
      exact ⟨isOpen, isOpen, Database.spares_removeProject closed sound p⟩
  | cleared done =>
      obtain ⟨isOpen, _, changed, rfl⟩ := of_change (fun db => .ok (db.clearGraph p)) done
      obtain rfl := Except.ok.inj changed
      exact ⟨isOpen, isOpen, Database.spares_clearGraph closed sound p⟩
  | @indexed record _ named elements done =>
      obtain ⟨isOpen, rfl⟩ := of_indexing done
      exact ⟨isOpen, isOpen, named ▸ Database.spares_indexed sound record elements closed⟩

theorem project_congr (isOpen : s'.isOpen = s.isOpen)
    (same : s'.database.projects.get? q = s.database.projects.get? q) :
    s'.project q = s.project q := by
  simp only [Store.project, Store.ask, isOpen]
  split
  · simp only [bind, Except.bind, same]
  · rfl

/-- What is spared is said as before. -/
theorem Echoes.of_spares (sound : s.database.Sound) (closed : s.database.Closed)
    (isOpen : s'.isOpen = s.isOpen) (spares : Database.Spares p s.database s'.database)
    (other : q ≠ p) : Echoes q id s s' ∧ s'.fileHashes q = s.fileHashes q := by
  constructor
  · have still : (fun row : SymbolRow => row.moved {}) = id := funext SymbolRow.moved_zero
    rw [← still]
    refine .of_graphOf sound closed spares.sound spares.closed isOpen
      (project_congr isOpen (spares.projects q other)) ?_
    rw [spares.graph q other, Database.moved_zero]
  · simp only [fileHashes_eq, Store.ask, isOpen]
    split
    · exact congrArg Except.ok (spares.hashes q other)
    · rfl

/-! ### A project that is gone -/

/-- Nothing in a database is a project's. -/
structure Database.Without (db : Database) (p : String) : Prop where
  rows : db.Vacant p
  hashes : ∀ path, db.hashes.get? (p, path) = none
  project : db.projects.get? p = none

theorem Database.without_removeProject (db : Database) (p : String) :
    (db.removeProject p).Without p where
  rows :=
    have cleared := vacant_clearGraph db p
    ⟨cleared.documents, cleared.symbols, cleared.ranges, cleared.items, cleared.monikers⟩
  hashes path := by
    refine (Table.get?_filter ..).trans ?_
    cases (db.clearGraph p).hashes.get? (p, path) <;> simp
  project := (Table.get?_erase ..).trans (if_pos rfl)

end Operations

/-! ### A program that is indexed -/

namespace GraphWriter

variable {w w' u : GraphWriter} {base : Database} {stream : List Element}

/-- A writer that takes a stream has written it. -/
theorem emits_of_takes (taken : sink.Takes w stream w') :
    stream.foldl (fun w e => (w.emit e).2) w = w' := by
  induction stream using List.reverseRecOn generalizing w' with
  | nil => exact Except.ok.inj taken
  | append_singleton stream e ih =>
      obtain ⟨u, before, last⟩ := Graph.takes_snoc.1 taken
      rw [List.foldl_append, ih before]
      unfold sink at last
      rcases emitted : u.emit e with ⟨_ | refusal, v⟩
      · rw [emitted] at last
        exact (congrArg Prod.snd emitted).trans (Except.ok.inj last)
      · rw [emitted] at last
        cases last

/-- **What a writer takes does not depend on the rows of other projects.** -/
theorem takes_beside (sound : base.Sound) (vacant : ∀ d ∈ base.documents, d.project ≠ w.project)
    (owning : w.Owning) :
    sink.Takes (w.beside base) stream w' ↔ ∃ u, sink.Takes w stream u ∧ w' = u.beside base := by
  induction stream using List.reverseRecOn generalizing w' with
  | nil =>
      constructor
      · intro taken
        exact ⟨w, Graph.takes_nil, (Except.ok.inj taken).symm⟩
      · rintro ⟨u, taken, rfl⟩
        obtain rfl := Except.ok.inj taken
        exact Graph.takes_nil
  | append_singleton stream e ih =>
      have later {u : GraphWriter} (taken : sink.Takes w stream u) :
          sink e (u.beside base) = (sink e u).map (·.beside base) := by
        obtain rfl := emits_of_takes taken
        refine sink_beside sound ?_ (owning.emits stream) e
        rwa [project_emits]
      constructor
      · intro taken
        obtain ⟨v, before, last⟩ := Graph.takes_snoc.1 taken
        obtain ⟨u, taken', rfl⟩ := ih.1 before
        rw [later taken'] at last
        cases next : sink e u with
        | error reason =>
            rw [next] at last
            cases last
        | ok u' =>
            rw [next] at last
            exact ⟨u', Graph.takes_snoc.2 ⟨u, taken', next⟩, (Except.ok.inj last).symm⟩
      · rintro ⟨u', taken, rfl⟩
        obtain ⟨u, taken', next⟩ := Graph.takes_snoc.1 taken
        refine Graph.takes_snoc.2 ⟨u.beside base, ih.2 ⟨u, taken', rfl⟩, ?_⟩
        rw [later taken', next]
        rfl

/-- A writer takes a stream in every store or in none. -/
theorem takes_start_iff {db : Database} (sound : db.Sound) (record : Project) :
    sink.Takes (start db record) stream w' ↔ ∃ u, sink.Takes (blank record.name) stream u ∧
      w' = u.beside ((db.upsert record).clearGraph record.name) := by
  rw [start_eq]
  exact takes_beside ((sound.upsert record).clearGraph record.name)
    (Database.vacant_clearGraph _ _).documents (owning_blank record.name)

end GraphWriter

section Programs

variable {s s₀ : Store} {record : Project} {elements : List Element}

/-- The record of a project is the one that its graph was written with. -/
theorem projects_written (sound : s.database.Sound) (record : Project) (elements : List Element) :
    (s.database.written record elements).flush.database.projects =
      s.database.projects.insert record.name record := by
  rw [Database.flush_written sound]
  rfl

/-- The project that a graph was written for. -/
theorem project_written (sound : s.database.Sound) (isOpen : s.isOpen = true) (record : Project)
    (elements : List Element) :
    Store.project { s with database := (s.database.written record elements).flush.database }
      record.name = .ok record := by
  have recorded : (s.database.written record elements).flush.database.projects.get? record.name =
      some record := by
    rw [projects_written sound]
    exact Table.get?_insert_self _ _ _
  simp only [Store.project, ask, isOpen, if_true, bind, Except.bind, recorded]
  rfl

/-- **What elements come to in a project depends on nothing that the store held before.** -/
theorem graphOf_written {db : Database} (sound : db.Sound) (record : Project)
    (elements : List Element) :
    (db.written record elements).flush.database.graphOf record.name =
      ((Database.written {} record elements).flush.database.graphOf record.name).moved
        db.offset := by
  have own := (only_ownRows record.name elements).2
  rw [Database.flush_written sound, Database.flush_written .empty,
    Database.graphOf_beside_own (Database.vacant_clearGraph _ _) own,
    Database.graphOf_beside_own (Database.vacant_clearGraph _ _) own]
  exact congrArg (Database.moved _) (Database.moved_zero _).symm

theorem Echoes.of_written (sound : s.database.Sound) (closed : s.database.Closed)
    (isOpen : s.isOpen = true) (record : Project) (elements : List Element) :
    Echoes record.name (·.moved s.database.offset)
      { database := (Database.written {} record elements).flush.database }
      { s with database := (s.database.written record elements).flush.database } := by
  have blank : Database.Closed {} := Database.Reached.empty.closed
  have fresh := Database.spares_indexed .empty record elements blank
  have here := Database.spares_indexed sound record elements closed
  refine .of_graphOf fresh.sound fresh.closed here.sound here.closed isOpen ?_
    (graphOf_written sound record elements)
  rw [project_written sound isOpen]
  exact (project_written (s := {}) .empty rfl record elements).symm

/-- What is done to a project of a store leads to a store that it can come to. -/
theorem Operates.reached {s' : Store} {p : String} (operates : Operates p s s')
    (reached : s.database.Reached) : s'.database.Reached := by
  cases operates with
  | @recorded record _ named done =>
      obtain ⟨-, _, changed, rfl⟩ := of_change (fun db => .ok (db.upsert record)) done
      obtain rfl := Except.ok.inj changed
      exact .upsert reached record
  | @digested hashes _ done =>
      obtain ⟨-, _, replaced, rfl⟩ := of_replaceFileHashes done
      exact .replaceHashes reached replaced
  | deleted done =>
      obtain ⟨-, rfl⟩ := of_deleteProject done
      exact .removeProject reached p
  | cleared done =>
      obtain ⟨-, _, changed, rfl⟩ := of_change (fun db => .ok (db.clearGraph p)) done
      obtain rfl := Except.ok.inj changed
      exact .clearGraph reached p
  | @indexed record _ named elements done =>
      obtain ⟨-, rfl⟩ := of_indexing done
      exact .indexed reached record elements

end Programs

/-! ## Isolation -/

open Session (Context State Stats Yields run)

/-- **Projects share a store and nothing else.**  In every store that there can be, what a range,
an item, a moniker or a link refers to is a row of its own project; whatever is done to a project,
a store answers about every other as before, by position, by symbol and by moniker, with its
digests and its summary; of a project that was deleted nothing is left; and a program that is
indexed into a project comes to what it comes to in a store that holds nothing, whatever the
project held, but for the numbers of its rows. -/
theorem isolated {s : Store} (reached : s.database.Reached) :
    s.database.Closed ∧
    (∀ p s', Operates p s s' → s'.database.Reached ∧
      ∀ q, q ≠ p → Echoes q id s s' ∧ s'.fileHashes q = s.fileHashes q) ∧
    (∀ p s', s.deleteProject p = .ok s' → s'.database.Without p) ∧
    ∀ {μ ω : Type} (c : Context μ ω) (canceled : Cancellation Nat) (memory : μ) (record : Project)
      (stats : Stats) (t : State μ GraphWriter), s.isOpen = true →
      Yields (run c.stored canceled) (.start c.stored memory (.start s.database record))
        (stats, none) t →
      ∃ t₀, Yields (run c.stored canceled) (.start c.stored memory (.start {} record))
          (stats, none) t₀ ∧
        Echoes record.name (·.moved s.database.offset)
          { database := t₀.output.flush.database }
          { s with database := t.output.flush.database } := by
  have sound := reached.sound
  have closed := reached.closed
  refine ⟨closed, fun p s' operates => ⟨operates.reached reached, fun q other => ?_⟩,
    fun p s' done => ?_, fun c canceled memory record stats t isOpen completed => ?_⟩
  · obtain ⟨before, after, spares⟩ := operates.spares sound closed
    exact Echoes.of_spares sound closed (after.trans before.symm) spares other
  · obtain ⟨-, rfl⟩ := of_deleteProject done
    exact s.database.without_removeProject p
  · obtain ⟨elements, taken, elsewhere⟩ := Session.run_elsewhere completed
    obtain ⟨u, taken', -⟩ := (GraphWriter.takes_start_iff sound record).1 taken
    have fresh := (GraphWriter.takes_start_iff .empty record).2 ⟨u, taken', rfl⟩
    obtain ⟨t₀, ran, output⟩ := elsewhere _ _ fresh
    refine ⟨t₀, ran, ?_⟩
    rw [output, ← GraphWriter.emits_of_takes fresh, ← GraphWriter.emits_of_takes taken]
    exact .of_written sound closed isOpen record elements

/-- A store that elements were indexed into twice, as two projects. -/
def shared (elements : List Element) : Store :=
  let first := (Database.written {} { name := "p" } elements).flush.database
  { database := (first.written { name := "q" } elements).flush.database }

theorem isolated_shared :
    ∃ elements, (shared elements).database.Closed ∧
      (∃ s', (shared elements).deleteProject "p" = .ok s' ∧ s'.database.Without "p" ∧
        Echoes "q" id (shared elements) s' ∧
        s'.fileHashes "q" = (shared elements).fileHashes "q") ∧
      ∃ t t₀,
        Yields (run Session.cyclicContext.stored false)
          (.start Session.cyclicContext.stored []
            (.start (shared elements).database { name := "p" }))
          ({ documents := 1, symbols := 4, definitions := 2, references := 2 }, none) t ∧
        Yields (run Session.cyclicContext.stored false)
          (.start Session.cyclicContext.stored [] (.start {} { name := "p" }))
          ({ documents := 1, symbols := 4, definitions := 2, references := 2 }, none) t₀ ∧
        Echoes "p" (·.moved (shared elements).database.offset)
          { database := t₀.output.flush.database }
          { shared elements with database := t.output.flush.database } := by
  have completed : (Session.outcome (run Session.cyclicContext.stored false)
      (.start Session.cyclicContext.stored [] (.start {} { name := "p" }))).1.toOption =
        some ({ documents := 1, symbols := 4, definitions := 2, references := 2 }, none) := by
    decide +kernel
  obtain ⟨elements, taken, elsewhere⟩ :=
    Session.run_elsewhere (Session.yields_of_answer completed)
  have once : (Database.written {} { name := "p" } elements).flush.database.Reached :=
    .indexed .empty _ _
  have reached : (shared elements).database.Reached := .indexed once _ _
  obtain ⟨u, blank, -⟩ := (GraphWriter.takes_start_iff .empty { name := "p" }).1 taken
  obtain ⟨t, ran, -⟩ := elsewhere _ _
    ((GraphWriter.takes_start_iff reached.sound { name := "p" }).2 ⟨u, blank, rfl⟩)
  have there : (shared elements).database.projects.contains "p" = true := by
    rw [shared, projects_written (s := { database := _ }) once.sound,
      projects_written (s := {}) .empty]
    rfl
  have deletes : (shared elements).deleteProject "p" =
      .ok { shared elements with database := (shared elements).database.removeProject "p" } := by
    simp only [deleteProject, ask, show (shared elements).isOpen = true from rfl, if_true, there,
      bind, Except.bind]
    rfl
  obtain ⟨closed, spared, gone, indexed⟩ := isolated reached
  obtain ⟨t₀, fresh, echoes⟩ :=
    indexed Session.cyclicContext false [] { name := "p" } _ t rfl ran
  exact ⟨elements, closed, ⟨_, deletes, gone _ _ deletes,
    (spared _ _ (.deleted deletes)).2 "q" (by decide)⟩, t, t₀, ran, fresh, echoes⟩

end Store
end SymbolAtlas
