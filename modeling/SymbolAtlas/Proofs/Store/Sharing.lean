/-
# SymbolAtlas.Proofs.Store.Sharing -- references across projects, each place once

What starts twice among the references of a symbol would start twice among what its item edges
list, in one project, for the places of two projects differ.  Runs list no two ranges of a symbol
that start at one place (`State.Laid.listed_apart`), the writer keeps every range where it is, and
what is done to one project leaves the places of the others.  So in a database that runs have
produced no symbol lists two places that start alike (`Database.Produced.spread`).

The answer to a request for references is then the union over all symbols that share a moniker
(`references_shared`).  It takes that no two files of a run are shown under one path: a project
tells places apart by the paths that it shows, not by those of the files
(`references_shared_astray`).
-/
import SymbolAtlas.Proofs.Session.Positions
import SymbolAtlas.Proofs.Store.Gathering
import SymbolAtlas.Proofs.Store.Navigation
import SymbolAtlas.Proofs.Store.Isolation

set_option autoImplicit false

namespace SymbolAtlas

open SymbolAtlas.Graph (Id Element)
open Session (Context State Stats Yields run displayPath siteIn)

/-! ## Programs that tell their names apart -/

/-- No two files that a session has opened are shown under one path. -/
def Session.State.ShownApart {μ ω ω' : Type} (c : Context μ ω) (t : State μ ω') : Prop :=
  ∀ path ∈ t.documents.keys, ∀ path' ∈ t.documents.keys,
    displayPath c.options.root path = displayPath c.options.root path' → path = path'

instance {μ ω ω' : Type} (c : Context μ ω) (t : State μ ω') : Decidable (t.ShownApart c) :=
  inferInstanceAs (Decidable (∀ path ∈ t.documents.keys, ∀ path' ∈ t.documents.keys,
    displayPath c.options.root path = displayPath c.options.root path' → path = path'))

/-- Names of a sketch are told apart by where they start if its identifiers are. -/
theorem Sketch.Proper.spread {s : Sketch} (proper : s.Proper) {options : Session.Options}
    {locate : Locator} (log : Sketch.AliasLog)
    (identifiers : ((Tree.identifiers s.oracle.files).map fun x => (x.1, x.2.span.start)).Nodup) :
    ((s.indexing options locate).stored).Spread log := by
  refine ⟨identifiers, fun {m id id'} shown shown' _ file start => ?_⟩
  have marked {id : NodeId} (shown : s.oracle.Shown log m id) :
      ∃ at_, (s.fileAt at_).isSome = true ∧
        siteIn (s.indexing options locate).stored m id = Session.Site.ofNode (s.node at_) := by
    cases named : (s.node id).nameNode with
    | none => exact ⟨id, proper.fileAt_of_shown shown, Session.siteIn_of_unnamed named⟩
    | some name =>
        exact ⟨name, proper.fileAt_of_shown (.name shown named), Session.siteIn_of_name named⟩
  obtain ⟨at_, there, site⟩ := marked shown
  obtain ⟨at_', there', site'⟩ := marked shown'
  rw [site, site'] at file start ⊢
  obtain ⟨path, known⟩ := Option.isSome_iff_exists.1 there
  obtain ⟨path', known'⟩ := Option.isSome_iff_exists.1 there'
  obtain ⟨e, -, same, own⟩ := Sketch.exists_node known
  obtain ⟨e', -, same', own'⟩ := Sketch.exists_node known'
  have paths : path = path' := by
    rw [← own, ← own', ← same, ← same']
    exact file
  have spans := proper.span_eq known (paths ▸ known') (congrArg Text.Position.line start)
  exact congrArg₂ Session.Site.mk file spans

namespace Store

open Service (starts startOf)

/-! ## What a stream lists -/

/-- No symbol of a stream lists two places that start alike. -/
def Strewn (project : String) (stream : List Element) : Prop :=
  ∀ resultSet properties place other, Listed project stream resultSet properties place →
    Listed project stream resultSet properties other → startOf place = startOf other → place = other

/-- **A completed run lists no two places of a symbol that start alike.** -/
theorem strewn_run {μ ω : Type} {c : Context μ ω} {view : ω → List Element}
    (records : c.sink.Records view) {canceled : Cancellation Nat} {memory : μ} {output : ω}
    {stats : Stats} {s' : State μ ω} (empty : view output = [])
    (completed : Yields (run c canceled) (.start c memory output) (stats, none) s')
    (anchored : c.oracle.Anchored memory) (spread : c.Spread memory) (apart : s'.ShownApart c)
    (project : String) : Strewn project (view s'.output) := by
  obtain ⟨u, laid, before⟩ := Session.laid_run records empty completed anchored spread.identifiers
  obtain ⟨-, documents⟩ := Session.described_run records empty completed
  have distinct := (Session.traced_run records empty completed).wellFormed.ordered.distinct
  rintro resultSet properties place other ⟨i, edge, -, id, listed, r, d, range, file, rfl⟩
    ⟨j, edge', -, id', listed', r', d', range', file', rfl⟩ same
  obtain ⟨owner, item, member⟩ := Graph.mem_itemsFrom.1 edge
  obtain ⟨owner', item', member'⟩ := Graph.mem_itemsFrom.1 edge'
  obtain ⟨-, path, start⟩ : project = project ∧ d.path = d'.path ∧ r.span.start = r'.span.start := by
    simpa [startOf, placeIn] using same
  obtain ⟨file₁, node₁, document₁, number₁, rfl⟩ := documents _ _ file
  obtain ⟨file₂, node₂, document₂, number₂, rfl⟩ := documents _ _ file'
  obtain rfl : file₁ = file₂ := apart _ (Table.mem_keys_iff.2 (by simp [document₁])) _
    (Table.mem_keys_iff.2 (by simp [document₂])) path
  obtain rfl := Option.some.inj (document₁.symm.trans document₂)
  have home : r.document = r'.document := number₁.symm.trans number₂
  rw [laid.listed_apart spread (owner.trans owner'.symm) (before _ _ member (by simp))
    (before _ _ member' (by simp)) listed listed' (before _ _ range (by simp))
    (before _ _ range' (by simp)) home start]

/-! ## What a database lists -/

namespace Database

/-- No symbol of a database lists two places that start alike. -/
def Spread (db : Database) : Prop :=
  ∀ s ∈ db.symbols, ∀ properties, ∀ place ∈ db.itemPlaces s.id properties,
    ∀ other ∈ db.itemPlaces s.id properties, startOf place = startOf other → place = other

variable {db db' : Database} {p : String}

/-- What is done to one project leaves the places of the others. -/
theorem Spares.spread (spares : Spares p db db') (closed : db.Closed) (sound : db.Sound)
    (h : db.Spread)
    (own : ∀ s ∈ db'.symbols, s.project = p → ∀ properties,
      ∀ place ∈ db'.itemPlaces s.id properties, ∀ other ∈ db'.itemPlaces s.id properties,
        startOf place = startOf other → place = other) : db'.Spread := by
  intro s member
  by_cases here : s.project = p
  · exact own s member here
  · have graph := spares.graph s.project here
    have before : s ∈ db.symbols :=
      (mem_graphOf_symbols.1 (graph ▸ mem_graphOf_symbols.2 ⟨member, rfl⟩)).1
    intro properties
    have places : db'.itemPlaces s.id properties = db.itemPlaces s.id properties := by
      rw [← spares.closed.itemPlaces spares.sound (Closed.own_id spares.sound member rfl), graph,
        closed.itemPlaces sound (Closed.own_id sound before rfl)]
    rw [places]
    exact h s before properties

/-- A project without symbols lists nothing. -/
theorem Spares.spread_of_vacant (spares : Spares p db db') (closed : db.Closed) (sound : db.Sound)
    (h : db.Spread) (vacant : db'.Vacant p) : db'.Spread :=
  spares.spread closed sound h fun s member here => absurd here (vacant.symbols s member)

end Database

/-! ## Databases that runs have produced -/

/-- A symbol that a writer has numbered anew, or one that stood there. -/
def GraphWriter.Numbers (base w : GraphWriter) : Prop :=
  base.database.lastSymbol ≤ w.database.lastSymbol ∧ ∀ s ∈ w.database.symbols,
    base.database.lastSymbol < s.id ∨
      ∃ old ∈ base.database.symbols, old.id = s.id ∧ old.project = s.project

namespace GraphWriter

variable {base w w' : GraphWriter}

theorem Numbers.of_symbols (h : base.Numbers w) (last : w'.database.lastSymbol = w.database.lastSymbol)
    (symbols : w'.database.symbols = w.database.symbols) : base.Numbers w' := by
  unfold Numbers
  rw [last, symbols]
  exact h

theorem Numbers.taking (h : base.Numbers w) {e : Element} (taking : Taking w e w') :
    base.Numbers w' := by
  cases taking with
  | document | range | labelled | aside => exact h.of_symbols rfl rfl
  | symbol =>
      refine ⟨Nat.le_succ_of_le h.1, fun s member => ?_⟩
      rcases Array.mem_push.1 member with old | rfl
      · exact h.2 s old
      · exact .inl (Nat.lt_succ_of_le h.1)
  | @item _ i symbol rows =>
      obtain ⟨_, _, shape⟩ := withItems_eq symbol i.property.name w rows
      rw [shape]
      exact h.of_symbols rfl rfl
  | touched plain owner same linked =>
      refine ⟨h.1, fun s member => ?_⟩
      obtain ⟨before, there, rfl⟩ := Array.mem_map.1 member
      split
      · obtain ⟨_, _, shape⟩ := same before
        rw [shape]
        exact h.2 before there
      · exact h.2 before there
  | flushed =>
      rw [flush_eq]
      exact h.of_symbols rfl rfl

theorem numbers_of_takes {elements : List Element} (taken : sink.Takes base elements w) :
    base.Numbers w := by
  induction elements using List.reverseRecOn generalizing w with
  | nil =>
      obtain rfl : base = w := Except.ok.inj taken
      exact ⟨Nat.le_refl _, fun s member => .inr ⟨s, member, rfl, rfl⟩⟩
  | append_singleton elements e ih =>
      obtain ⟨u, before, last⟩ := Graph.takes_snoc.1 taken
      obtain ⟨v, taking, rfl⟩ := taking_of_sink last
      exact ((ih before).taking taking).of_symbols rfl rfl

end GraphWriter

/-- **The symbols of a project that was written list what its stream lists.** -/
theorem spread_of_takes {db : Database} (sound : db.Sound) (record : Project)
    {stream : List Element} {w : GraphWriter}
    (taken : GraphWriter.sink.Takes (.start db record) stream w)
    (distinct : (stream.map (·.id)).Nodup) (strewn : Strewn record.name stream) :
    ∀ s ∈ w.flush.database.symbols, s.project = record.name → ∀ properties,
      ∀ place ∈ w.flush.database.itemPlaces s.id properties,
        ∀ other ∈ w.flush.database.itemPlaces s.id properties,
          startOf place = startOf other → place = other := by
  have held := follows (follows_start sound record) distinct taken
  have numbers := GraphWriter.numbers_of_takes taken
  intro s member own properties place here other there same
  have before : s ∈ w.database.symbols := by
    rw [GraphWriter.flush_eq] at member
    exact member
  obtain ⟨resultSet, mapped⟩ : ∃ resultSet, w.symbols.get? resultSet = some s.id := by
    rcases held.symbols.origin s before with old | ⟨resultSet, mapped, -⟩
    · rcases numbers.2 s before with new | ⟨first, stood, -, home⟩
      · exact absurd old (Nat.not_le_of_lt new)
      · exact absurd (home.trans own) ((Database.vacant_clearGraph _ _).symbols first stood)
    · exact ⟨resultSet, mapped⟩
  have flushed := held.flush
  have owner : w.flush.symbols.get? resultSet = some s.id := by
    rw [GraphWriter.flush_eq]
    exact mapped
  have nothing : w.flush.pending = #[] := by rw [GraphWriter.flush_eq]
  exact strewn resultSet properties place other
    ((mem_itemPlaces flushed distinct nothing owner).1 here)
    ((mem_itemPlaces flushed distinct nothing owner).1 there) same

/-- A database that completed runs have come to, of programs whose names are told apart by where
they start and that show no two files under one path.  Between the runs records and digests may
be written, and projects removed. -/
inductive Database.Produced : Database → Prop where
  | empty : Produced {}
  | indexed {db : Database} (h : Produced db) (record : Project) {μ ω : Type} (c : Context μ ω)
      {canceled : Cancellation Nat} {memory : μ} {stats : Stats} {t : State μ GraphWriter}
      (completed : Yields (run c.stored canceled) (.start c.stored memory (.start db record))
        (stats, none) t)
      (anchored : c.oracle.Anchored memory) (spread : c.stored.Spread memory)
      (apart : t.ShownApart c) : Produced t.output.flush.database
  | upsert {db : Database} (h : Produced db) (record : Project) : Produced (db.upsert record)
  | clearGraph {db : Database} (h : Produced db) (project : String) :
      Produced (db.clearGraph project)
  | removeProject {db : Database} (h : Produced db) (project : String) :
      Produced (db.removeProject project)
  | replaceHashes {db db' : Database} (h : Produced db) {project : String}
      {hashes : List (String × String)} (replaced : db.replaceHashes project hashes = .ok db') :
      Produced db'

namespace Database.Produced

variable {db : Database}

theorem reached (h : db.Produced) : db.Reached := by
  induction h with
  | empty => exact .empty
  | indexed _ record c completed _ _ _ ih =>
      obtain ⟨elements, taken, -⟩ := Session.run_elsewhere completed
      rw [← GraphWriter.emits_of_takes taken]
      exact .indexed ih record elements
  | upsert _ record ih => exact .upsert ih record
  | clearGraph _ project ih => exact .clearGraph ih project
  | removeProject _ project ih => exact .removeProject ih project
  | replaceHashes _ replaced ih => exact .replaceHashes ih replaced

/-- **In a database that runs have produced** no symbol lists two places that start alike. -/
theorem spread (h : db.Produced) : db.Spread := by
  induction h with
  | empty => exact fun _ member => absurd member (Array.not_mem_empty _)
  | @indexed db before record μ ω c canceled memory stats t completed anchored spread apart ih =>
      have sound := before.reached.sound
      have closed := before.reached.closed
      obtain ⟨kept, collected, rfl, taken⟩ := Session.run_collected completed
      have records := Session.records_collected c.stored
      have distinct := (Session.traced_run records rfl collected).wellFormed.ordered.distinct
      have spread : c.stored.collected.Spread memory := ⟨spread.identifiers, spread.marks⟩
      have strewn := strewn_run records rfl collected anchored spread apart record.name
      have own := spread_of_takes sound record taken distinct strewn
      have spares := spares_indexed sound record kept.output.toList closed
      rw [written, GraphWriter.emits_of_takes taken] at spares
      exact spares.spread closed sound ih own
  | upsert before record ih => exact ih
  | clearGraph before p ih =>
      exact (spares_clearGraph before.reached.closed before.reached.sound p).spread_of_vacant
        before.reached.closed before.reached.sound ih (vacant_clearGraph _ p)
  | removeProject before p ih =>
      exact (spares_removeProject before.reached.closed before.reached.sound p).spread_of_vacant
        before.reached.closed before.reached.sound ih (without_removeProject _ p).rows
  | replaceHashes before replaced ih =>
      obtain rfl := replaceHashes_eq replaced
      exact ih

end Database.Produced

/-! ## References in all projects -/

open Service (Arguments Reply Shares Target findReferences sharedReferences)

/-- **References are found in all projects, each place once.**  In a store that runs have
produced, take any request that is about a position, and the symbol there.  The answer counts and
lists places no two of which start alike; they start where a reference of the symbol does, with
its definitions if they are asked for, or a reference of a symbol of any project that carries one
of its monikers.  And two symbols with the same monikers, if they have any, are answered with the
same places. -/
theorem references_shared {s : Store} (produced : s.database.Produced) :
    (∀ (a : Arguments) (t : Target) (symbol : SymbolRow), Target.ofArguments s a = .ok t →
      s.symbolAt t.project t.path t.position = .ok symbol →
      let declared := a.flag "include_declaration"
      let places := sharedReferences s.database symbol declared
      findReferences s a = .ofJson (.obj [
        ("count", places.length),
        ("monikers", Service.monikersJson (s.database.monikersOf symbol)),
        ("references", Json.listOrNull (places.map Place.toJson)),
        ("symbol", symbol.toJson)]) ∧
      (starts places).Nodup ∧
      ∀ start, start ∈ starts places ↔ start ∈ starts (s.database.references symbol declared) ∨
        ∃ other ∈ s.database.symbols, Shares s.database symbol other ∧
          start ∈ starts (s.database.references other false)) ∧
    ∀ first ∈ s.database.symbols, ∀ second ∈ s.database.symbols,
      s.database.monikersOf first ≠ [] →
      (∀ identifier, identifier ∈ s.database.monikersOf first ↔
        identifier ∈ s.database.monikersOf second) →
      ∀ start, start ∈ starts (sharedReferences s.database first false) ↔
        start ∈ starts (sharedReferences s.database second false) := by
  have sound := produced.reached.sound
  refine ⟨fun a t symbol target found => ?_, fun first member second member' some_ same start =>
    Service.starts_shared_alike sound member member' some_ same⟩
  obtain ⟨member, -⟩ :=
    produced.reached.closed.of_symbolAt? sound (symbolAt?_of_symbolAt found)
  refine ⟨?_, ?_, fun start => Service.mem_starts_sharedReferences sound member⟩
  · simp only [findReferences, Service.atTarget, target, found, bind, Except.bind]
    rfl
  · refine Service.nodup_gathered _ ?_
    exact (nodup_itemPlaces _ _ _).map_on fun place here other there same =>
      produced.spread symbol member _ place here other there same

/-! ### A function in two projects, and two files under one path -/

/-- A file with an exported function and a call of it. -/
def exporting : Sketch := calling.setExportPath 0 ["f"]

theorem drawn_exporting : exporting.Drawn := drawn_calling.exportPath 0 ["f"]

/-- The session that indexes a sketch into a project of a database. -/
def indexedInto (s : Sketch) (db : Database) (project : String) :
    State Sketch.AliasLog GraphWriter :=
  (Session.outcome (run (inRepo s) false) (.start (inRepo s) [] (.start db { name := project }))).2

/-- A request for the references of what stands at the beginning of a line of `a.go`. -/
def atLine (line : Nat) (declared : Bool) : Arguments :=
  { members := [("file", .str "a.go"), ("project", .str "p"), ("line", line), ("character", (0 : Nat)),
      ("include_declaration", .bool declared)] }

/-- Two projects with the same file. -/
def exported : Store :=
  let first := (indexedInto exporting {} "p").output.flush.database
  { database := (indexedInto exporting first "q").output.flush.database }

/-- A completed run that indexes a drawn sketch below `/repo` produces a database. -/
theorem produced_indexedInto {s : Sketch} (drawn : s.Drawn) {db : Database} (h : db.Produced)
    {project : String} (stats : Stats)
    (completed : (Session.outcome (run (inRepo s) false)
      (.start (inRepo s) [] (.start db { name := project }))).1.toOption = some (stats, none))
    (identifiers : ((Tree.identifiers s.oracle.files).map fun x => (x.1, x.2.span.start)).Nodup)
    (apart : (indexedInto s db project).ShownApart (inRepo s)) :
    (indexedInto s db project).output.flush.database.Produced :=
  .indexed h { name := project } (inRepo s) (Session.yields_of_answer completed)
    (drawn.proper.anchored []) (drawn.proper.spread [] identifiers) apart

theorem produced_exported : exported.database.Produced := by
  have first : (indexedInto exporting {} "p").output.flush.database.Produced :=
    produced_indexedInto drawn_exporting .empty
      { documents := 1, symbols := 1, definitions := 1, references := 1, monikers := 1 }
      (by decide +kernel) (by decide +kernel) (by decide +kernel)
  exact produced_indexedInto drawn_exporting first
    { documents := 1, symbols := 1, definitions := 1, references := 1, monikers := 1 }
    (by decide +kernel) (by decide +kernel) (by decide +kernel)

/-- The reference in the other project is found as well. -/
theorem references_shared_exported :
    exported.database.Produced ∧
    ∃ t symbol, Target.ofArguments exported (atLine 3 true) = .ok t ∧
      exported.symbolAt t.project t.path t.position = .ok symbol ∧ symbol.project = "p" ∧
      (starts (sharedReferences exported.database symbol true)).Nodup ∧
      ("q", "a.go", ⟨3, 0⟩) ∈ starts (sharedReferences exported.database symbol true) := by
  have target : Target.ofArguments exported (atLine 3 true) =
      .ok ⟨"p", "", "a.go", ⟨3, 0⟩⟩ := by decide +kernel
  have found : (fun db : Database =>
      decide ((db.covering "p" "a.go" ⟨3, 0⟩).Pairwise fun a b =>
        Database.isTighter a.span b.span = true) &&
      ((db.covering "p" "a.go" ⟨3, 0⟩).head?.bind fun r => db.symbol? r.symbol).any fun symbol =>
        decide (symbol.project = "p") && db.symbols.toList.any fun other =>
          ((db.monikersOf symbol).any fun identifier => decide (identifier ∈ db.monikersOf other)) &&
          db.items.toList.any fun i => decide (i.symbol = other.id ∧ i.property ∈ ["references"]) &&
            ((db.range? i.range).bind db.place?).any fun place =>
              decide (startOf place = ("q", "a.go", ⟨3, 0⟩))) exported.database = true := by
    decide +kernel
  have produced := produced_exported
  have opened : exported.isOpen = true := rfl
  generalize exported = s at target found produced opened ⊢
  obtain ⟨sorted, found⟩ := Bool.and_eq_true_iff.1 found
  obtain ⟨symbol, first, found⟩ := (Option.any_eq_true _ _).1 found
  obtain ⟨own, found⟩ := Bool.and_eq_true_iff.1 found
  obtain ⟨other, member, found⟩ := List.any_eq_true.1 found
  obtain ⟨shares, found⟩ := Bool.and_eq_true_iff.1 found
  obtain ⟨identifier, carried, carried'⟩ := List.any_eq_true.1 shares
  obtain ⟨i, item, found⟩ := List.any_eq_true.1 found
  obtain ⟨lists, found⟩ := Bool.and_eq_true_iff.1 found
  obtain ⟨place, here, start⟩ := (Option.any_eq_true _ _).1 found
  rw [← Database.symbolAt?_of_pairwise (of_decide_eq_true sorted)] at first
  have answer := symbolAt_of_open opened first
  obtain ⟨-, once, gathered⟩ := (references_shared produced).1 _ _ symbol target answer
  refine ⟨produced, _, symbol, target, answer, of_decide_eq_true own, once, (gathered _).2 (.inr ?_)⟩
  refine ⟨other, Array.mem_toList_iff.1 member,
    ⟨identifier, carried, of_decide_eq_true carried'⟩, ?_⟩
  rw [← of_decide_eq_true start]
  refine List.mem_map_of_mem (Service.mem_references.2 (.inl ?_))
  exact Database.mem_itemPlaces_iff.2
    ⟨i, Array.mem_toList_iff.1 item, of_decide_eq_true lists, here⟩

/-- Two files that are shown under one path, with a use of a function on the same line. -/
def twofold : Sketch :=
  let s := (Sketch.addFile {} "/repo/a.go").2
  let s := (s.addFile "a.go").2
  let s := (s.addSymbol "f" "f" {}).2
  let s := (s.addUse ⟨0⟩ 0).2
  let s := (s.addUse ⟨1⟩ 0).2
  (s.define ⟨0⟩ .function "f" 0).2

theorem drawn_twofold : twofold.Drawn := by
  have files := ((Sketch.Drawn.blank.file "/repo/a.go").file "a.go").symbol "f" "f" {}
  exact ((files.addUse (by decide) 0).addUse (by decide) 0).define (by decide) .function "f" 0

/-- What was indexed of it. -/
def folded : Store := { database := (indexedInto twofold {} "p").output.flush.database }

/-- Where two files are shown under one path, a place is found twice. -/
theorem references_shared_astray :
    twofold.Drawn ∧ (inRepo twofold).Spread [] ∧
    Yields (run (inRepo twofold) false) (.start (inRepo twofold) [] (.start {} { name := "p" }))
      ({ documents := 2, symbols := 1, definitions := 1, references := 2 }, none)
      (indexedInto twofold {} "p") ∧
    ∃ t symbol, Target.ofArguments folded (atLine 1 false) = .ok t ∧
      folded.symbolAt t.project t.path t.position = .ok symbol ∧
      ¬ (starts (sharedReferences folded.database symbol false)).Nodup := by
  have completed : (Session.outcome (run (inRepo twofold) false)
      (.start (inRepo twofold) [] (.start {} { name := "p" }))).1.toOption =
        some ({ documents := 2, symbols := 1, definitions := 1, references := 2 }, none) := by
    decide +kernel
  have target : Target.ofArguments folded (atLine 1 false) = .ok ⟨"p", "", "a.go", ⟨1, 0⟩⟩ := by
    decide +kernel
  have found : (fun db : Database =>
      decide ((db.covering "p" "a.go" ⟨1, 0⟩).Pairwise fun a b =>
        Database.isTighter a.span b.span = true) &&
      ((db.covering "p" "a.go" ⟨1, 0⟩).head?.bind fun r => db.symbol? r.symbol).any fun symbol =>
        decide (db.monikersOf symbol = []) && ["file:///repo/a.go", "file://a.go"].all fun uri =>
          db.items.toList.any fun i => decide (i.symbol = symbol.id ∧ i.property ∈ ["references"]) &&
            ((db.range? i.range).bind db.place?).any fun place =>
              decide (startOf place = ("p", "a.go", ⟨1, 0⟩) ∧ place.uri = uri)) folded.database =
      true := by
    decide +kernel
  refine ⟨drawn_twofold, drawn_twofold.proper.spread [] (by decide +kernel),
    Session.yields_of_answer completed, ⟨"p", "", "a.go", ⟨1, 0⟩⟩, ?_⟩
  have opened : folded.isOpen = true := rfl
  generalize folded = s at target found opened ⊢
  obtain ⟨sorted, found⟩ := Bool.and_eq_true_iff.1 found
  obtain ⟨symbol, first, found⟩ := (Option.any_eq_true _ _).1 found
  obtain ⟨alone, found⟩ := Bool.and_eq_true_iff.1 found
  rw [← Database.symbolAt?_of_pairwise (of_decide_eq_true sorted)] at first
  refine ⟨symbol, target, symbolAt_of_open opened first, fun once => ?_⟩
  have own : sharedReferences s.database symbol false = s.database.references symbol false := by
    rw [sharedReferences, of_decide_eq_true alone]
    rfl
  have listed (uri : String) (member : uri ∈ ["file:///repo/a.go", "file://a.go"]) :
      ∃ place ∈ sharedReferences s.database symbol false,
        startOf place = ("p", "a.go", ⟨1, 0⟩) ∧ place.uri = uri := by
    obtain ⟨i, item, found⟩ := List.any_eq_true.1 (List.all_eq_true.1 found uri member)
    obtain ⟨lists, found⟩ := Bool.and_eq_true_iff.1 found
    obtain ⟨place, here, there⟩ := (Option.any_eq_true _ _).1 found
    refine ⟨place, ?_, of_decide_eq_true there⟩
    rw [own]
    exact Service.mem_references.2 (.inl (Database.mem_itemPlaces_iff.2
      ⟨i, Array.mem_toList_iff.1 item, of_decide_eq_true lists, here⟩))
  obtain ⟨place, inside, start, uri⟩ := listed "file:///repo/a.go" (by simp)
  obtain ⟨other, inside', start', uri'⟩ := listed "file://a.go" (by simp)
  have same := List.inj_on_of_nodup_map once inside inside' (start.trans start'.symm)
  rw [same, uri'] at uri
  exact absurd uri (by decide)

end Store
end SymbolAtlas
