/-
# SymbolAtlas.Proofs.Store.Navigation -- what an indexed sketch answers

Four layers lie between an identifier and the answers about it: the run that comes upon it, the
stream that the run emits, the rows that a writer makes of the stream, and the queries that join
the rows.  Each was read off by itself: the ranges of the stream are those of the identifiers
(`charted_run`), its vertices say where they belong (`described_run`), the writer keeps every
row under its element (`follows`), and the queries find them (`Follows.symbolAt?`,
`mem_itemPlaces`).

Put together, a store into which a sketch was indexed answers at an identifier with the symbol
that the identifier denotes and with the places that the run listed for it (`indexed_answers`).
A declaration of the identifier kind stands where its name does, so where the two denote
different symbols the store answers with one of them only (`indexed_answers_twins`).
-/
import SymbolAtlas.Proofs.Session.Vertices
import SymbolAtlas.Proofs.Sketch.Drawn
import SymbolAtlas.Proofs.Store.Answering
import SymbolAtlas.Proofs.Text.Paths

set_option autoImplicit false

namespace SymbolAtlas

open SymbolAtlas.Graph (Id Element)
open Text (Span Position)
open Text.Path (Absolute)

namespace Session

variable {μ ω : Type}

/-- The elements that a run emits. -/
def Context.elements (c : Context μ ω) (canceled : Cancellation Nat) (memory : μ) : List Element :=
  (outcome (run c.collected canceled) (.start c.collected memory #[])).2.output.toList

end Session

open Session (Context State Stats SymbolNode Yields run displayPath schedule sightings)

/-- A sketch that is indexed into a store. -/
def Sketch.indexing (s : Sketch) (options : Session.Options) (locate : Locator) :
    Context Sketch.AliasLog Store.GraphWriter where
  oracle := s.oracle
  sink := Store.GraphWriter.sink
  options := options
  locate := locate

namespace Sketch

/-! ## Identifiers on a line -/

theorem line_of_covers {line width : Nat} {position : Position}
    (covers : Store.Database.covers (onLine line width) position = true) :
    position.line = line := by
  unfold onLine at covers
  simp only [Store.Database.covers, Store.Database.isEarlier, Bool.and_eq_true, Bool.not_eq_true',
    Bool.or_eq_false_iff, decide_eq_false_iff_not, Bool.or_eq_true, decide_eq_true_eq] at covers
  omega

/-- Nodes of one file that cover one position stand at one place. -/
theorem Proper.span_eq_of_covers {s : Sketch} (h : s.Proper) {id other : NodeId} {file : String}
    (known : s.fileAt id = some file) (known' : s.fileAt other = some file) {position : Position}
    (covers : Store.Database.covers (s.node id).span position = true)
    (covers' : Store.Database.covers (s.node other).span position = true) :
    (s.node id).span = (s.node other).span := by
  refine h.span_eq known known' ?_
  obtain ⟨line, width, shape⟩ := h.span_onLine known
  obtain ⟨line', width', shape'⟩ := h.span_onLine known'
  rw [shape] at covers ⊢
  rw [shape'] at covers' ⊢
  exact (line_of_covers covers).symm.trans (line_of_covers covers')

end Sketch

/-! ## What is answered -/

namespace Store

/-- What a store answers at a position about a symbol that a stream was written for: its row, and
the places of the ranges that the item edges of the symbol list, each one time.  Definitions are
its own if it has any. -/
structure Answers (store : Store) (project : String) (stream : List Element) (resultSet : Id)
    (row : SymbolRow) (path : String) (position : Position) : Prop where
  symbol : store.symbolAt project path position = .ok row
  references : ∀ withDeclaration, ∃ places,
    store.referencesAt project path position withDeclaration = .ok places ∧ places.Nodup ∧
    ∀ place, place ∈ places ↔ Listed project stream resultSet
      ("references" :: if withDeclaration then ["definitions"] else []) place
  definitions : (∃ place, Listed project stream resultSet ["definitions"] place) → ∃ places,
    store.definitionsAt project path position = .ok places ∧ places.Nodup ∧
    ∀ place, place ∈ places ↔ Listed project stream resultSet ["definitions"] place

/-- An open store answers from its database. -/
theorem symbolAt_of_open {store : Store} (open_ : store.isOpen = true) {project path : String}
    {position : Position} {row : SymbolRow}
    (found : store.database.symbolAt? project path position = some row) :
    store.symbolAt project path position = .ok row := by
  have asked : store.ask "symbol at" = .ok store.database := by
    simp [Store.ask, open_]
  simp only [Store.symbolAt, asked, bind, Except.bind, found]
  rfl

/-- A database that gives a symbol at a position answers about it from the stream. -/
theorem Follows.answers {base w : GraphWriter} {stream : List Element} {resultSet : Id}
    {path : String} {position : Position} (h : Follows base stream w)
    (distinct : (stream.map (·.id)).Nodup) (nothing : w.pending = #[]) {row : SymbolRow}
    (owner : w.symbols.get? resultSet = some row.id) {store : Store} (open_ : store.isOpen = true)
    (holds : store.database = w.database)
    (found : w.database.symbolAt? base.project path position = some row) :
    Answers store base.project stream resultSet row path position := by
  have symbol : store.symbolAt base.project path position = .ok row :=
    symbolAt_of_open open_ (by rw [holds]; exact found)
  refine ⟨symbol, fun withDeclaration => ?_, fun ⟨place, listed⟩ => ?_⟩
  · refine ⟨_, ?_, nodup_itemPlaces w.database row.id
      ("references" :: if withDeclaration then ["definitions"] else []),
      fun place => mem_itemPlaces h distinct nothing owner⟩
    rw [Store.referencesAt, symbol, holds]
    rfl
  · have own : w.database.itemPlaces row.id ["definitions"] ≠ [] :=
      List.ne_nil_of_mem ((mem_itemPlaces h distinct nothing owner).2 listed)
    refine ⟨_, ?_, nodup_itemPlaces w.database row.id ["definitions"],
      fun place => mem_itemPlaces h distinct nothing owner⟩
    rw [Store.definitionsAt, symbol, holds, ← definitions_of_own own]
    rfl

end Store

/-! ## What a run over a sketch emits -/

section Emitted

variable {s : Sketch} {options : Session.Options} {locate : Locator} {canceled : Cancellation Nat}
  {log : Sketch.AliasLog} {stats : Stats} {t : State Sketch.AliasLog (Array Element)}

/-- The paths of the files of a sketch are clean and start at the root, and so does the root. -/
structure Sketch.Clean (s : Sketch) (options : Session.Options) : Prop where
  root : Absolute options.root
  nodes : ∀ e ∈ s.nodes, Absolute e.node.file
  distinct : (s.oracle.files.map (·.root.file)).Nodup

theorem Sketch.Clean.fileAt (h : s.Clean options) {id : NodeId} {file : String}
    (known : s.fileAt id = some file) : Absolute file := by
  obtain ⟨e, here, -, rfl⟩ := Sketch.exists_node known
  exact h.nodes e (Array.mem_of_getElem? here)

theorem Sketch.Clean.indexed (h : s.Clean options) (proper : s.Proper) {file : Tree}
    (indexed : file ∈ s.oracle.files) : Absolute file.root.file := by
  obtain ⟨n, children⟩ := file
  exact h.fileAt (proper.mem_file indexed List.mem_cons_self).2.2

variable (completed : Yields (run (s.indexing options locate).collected canceled)
  (.start (s.indexing options locate).collected log #[]) (stats, none) t)

include completed

/-- No two documents of the stream have one path. -/
theorem document_unique (proper : s.Proper) (clean : s.Clean options) {path : String}
    {d : Session.DocumentNode} (absolute : Absolute path)
    (document : t.documents.get? path = some d) {id : Id} {body : Graph.Document}
    (member : ⟨id, .document body⟩ ∈ t.output.toList)
    (same : body.path = displayPath options.root path) : id = d.id := by
  have records := Session.records_collected (s.indexing options locate)
  obtain ⟨described, only⟩ := Session.described_run records rfl completed
  obtain ⟨path', d', document', rfl, rfl⟩ := only id body member
  have absolute' : Absolute path' := by
    rcases (described.documents path' d' document').2 with visited | ⟨key, n, id, m, node, chosen, file⟩
    · rw [Session.traversal_run completed] at visited
      obtain ⟨file, indexed, rfl⟩ := List.mem_map.1 visited
      exact clean.indexed proper indexed
    · have shown := Session.shown_run completed (proper.anchored log) node chosen
      obtain ⟨file', known⟩ := Option.isSome_iff_exists.1 (proper.fileAt_of_shown shown)
      obtain ⟨_, _, same, own⟩ := Sketch.exists_node known
      have file : (s.node id).file = path' := file
      rw [← file, same, own]
      exact clean.fileAt known
  obtain rfl : path' = path := Session.displayPath_injective clean.root absolute' absolute same
  rw [document] at document'
  rw [Option.some.inj document']

/-- An identifier that denotes a symbol finds the node of the symbol and a range of it. -/
theorem range_of_identifier (proper : s.Proper) (clean : s.Clean options) {file : Tree}
    (indexed : file ∈ s.oracle.files) {name : Node} (inside : name ∈ file.nodes)
    (kind : name.kind = .identifier) {bound : SketchSymbol}
    (binding : s.symbolAt name.id = some bound) :
    ∃ n d, t.symbols.get? bound.symbol.key = some n ∧
      t.documents.get? file.root.file = some d ∧
      ∃ id r, ⟨id, .range r⟩ ∈ t.output.toList ∧ r.document = d.id ∧ r.span = name.span ∧
        r.resultSet = n.resultSet := by
  have records := Session.records_collected (s.indexing options locate)
  have charted := Session.charted_run records rfl completed (proper.anchored log)
  have named : (file.root.file, name) ∈ Tree.identifiers s.oracle.files :=
    Session.mem_identifiers.2 ⟨file, indexed, rfl, inside, kind⟩
  rw [← Session.names_sightings (c := (s.indexing options locate).collected) clean.distinct
    ((State.start (s.indexing options locate).collected log #[]).opened
      (s.indexing options locate).collected)] at named
  obtain ⟨x, seen, same⟩ := List.mem_map.1 named
  obtain ⟨path, rfl⟩ := Prod.mk.inj same
  obtain ⟨memory, denotes⟩ := Session.denotes_of_mem_sightings seen
  have denotes : x.symbol = some bound.symbol := by
    rw [denotes]
    show (s.symbolAt x.name.id).map (·.symbol) = _
    rw [binding]
    rfl
  obtain ⟨⟨id, r⟩, entry, sym, n, symbol, node, span, owner, -⟩ :=
    charted.ranged x seen (by simp [denotes])
  obtain rfl := Option.some.inj (denotes.symm.trans symbol)
  rw [State.rangesAt, path] at entry
  cases document : t.documents.get? file.root.file with
  | none => simp [document] at entry
  | some d =>
      rw [document] at entry
      obtain ⟨home, range⟩ := Graph.mem_rangesIn.1 entry
      exact ⟨n, d, node, rfl, id, r, range, home, span, owner⟩

/-- What covers a position of an identifier is a range of the same symbol, if no other identifier
at its place denotes another one. -/
theorem range_at_identifier (proper : s.Proper) (clean : s.Clean options) {file : Tree}
    (indexed : file ∈ s.oracle.files) {name : Node} (inside : name ∈ file.nodes)
    {bound : SketchSymbol}
    (alone : ∀ other ∈ file.nodes, other.kind = .identifier → other.span = name.span →
      ∀ b, s.symbolAt other.id = some b → b.symbol.key = bound.symbol.key)
    {n : SymbolNode} (node : t.symbols.get? bound.symbol.key = some n) {d : Session.DocumentNode}
    (document : t.documents.get? file.root.file = some d) {position : Position}
    (covers : Store.Database.covers name.span position = true) {id : Id} {r : Graph.Range}
    (range : ⟨id, .range r⟩ ∈ t.output.toList) (home : r.document = d.id)
    (covers' : Store.Database.covers r.span position = true) : r.resultSet = n.resultSet := by
  have records := Session.records_collected (s.indexing options locate)
  have charted := Session.charted_run records rfl completed (proper.anchored log)
  have visited : file.root.file ∈ t.traversal := by
    rw [Session.traversal_run completed]
    exact List.mem_map_of_mem indexed
  have entry : (id, r) ∈ t.rangesAt (·.toList) file.root.file := by
    rw [State.rangesAt, document]
    exact Graph.mem_rangesIn.2 ⟨home, range⟩
  obtain ⟨x, seen, path, sym, n', symbol, node', span, owner, -⟩ :=
    charted.sighted _ visited _ entry
  have named : (x.path, x.name) ∈ Tree.identifiers s.oracle.files := by
    rw [← Session.names_sightings (c := (s.indexing options locate).collected) clean.distinct
      ((State.start (s.indexing options locate).collected log #[]).opened
        (s.indexing options locate).collected)]
    exact List.mem_map_of_mem seen
  obtain ⟨file', indexed', path', inside', kind⟩ := Session.mem_identifiers.1 named
  obtain rfl : file' = file :=
    List.inj_on_of_nodup_map clean.distinct indexed' indexed (path'.symm.trans path)
  obtain ⟨memory, denotes⟩ := Session.denotes_of_mem_sightings seen
  have denotes : x.symbol = (s.symbolAt x.name.id).map (·.symbol) := denotes
  obtain ⟨b, binding, rfl⟩ := Option.map_eq_some_iff.1 (denotes.symm.trans symbol)
  obtain ⟨same, -, known⟩ := proper.mem_file indexed inside
  obtain ⟨same', -, known'⟩ := proper.mem_file indexed inside'
  rw [span, ← same'] at covers'
  rw [← same] at covers
  have spans := proper.span_eq_of_covers known' known covers' covers
  rw [same, same'] at spans
  rw [alone x.name inside' kind spans b binding] at node'
  rw [Option.some.inj (node.symm.trans node')]
  exact owner

end Emitted

/-! ## Indexing and asking -/

namespace Store

open Session (Context)

/-- **A store answers at an identifier from what was indexed.**  Take a sketch whose paths are
clean and start at the root, any store, and a completed run that indexes the sketch into a project
of it.  At every position of an identifier of a file that denotes a symbol, unless another
identifier at its place denotes another symbol, the store gives the row of the symbol, and the
places of the ranges that the run has listed for it. -/
theorem indexed_answers {s : Sketch} (drawn : s.Drawn) {options : Session.Options}
    (clean : s.Clean options) {locate : Locator} {store : Store} (open_ : store.isOpen = true)
    (reached : store.database.Reached) (p : Project) {canceled : Cancellation Nat}
    {log : Sketch.AliasLog} {stats : Stats} {t : State Sketch.AliasLog GraphWriter}
    (completed : Yields (run (s.indexing options locate) canceled)
      (.start (s.indexing options locate) log (.start store.database p)) (stats, none) t)
    {file : Tree} (indexed : file ∈ s.oracle.files) {name : Node} (inside : name ∈ file.nodes)
    (kind : name.kind = .identifier) {bound : SketchSymbol}
    (binding : s.symbolAt name.id = some bound)
    (alone : ∀ other ∈ file.nodes, other.kind = .identifier → other.span = name.span →
      ∀ b, s.symbolAt other.id = some b → b.symbol.key = bound.symbol.key) :
    GraphWriter.sink.Takes (.start store.database p)
      ((s.indexing options locate).elements canceled log) t.output ∧
    ∃ n row, t.symbols.get? bound.symbol.key = some n ∧
      t.output.symbols.get? n.resultSet = some row.id ∧
      (∃ hover aliasOf, row = { symbolRow p.name row.id n.vertex with hover, aliasOf }) ∧
      ∀ position, Database.covers name.span position = true →
        Answers { store with database := t.output.flush.database } p.name
          ((s.indexing options locate).elements canceled log) n.resultSet row
          (displayPath options.root file.root.file) position := by
  have proper := drawn.proper
  obtain ⟨kept, collected, rfl, taken⟩ := Session.run_collected completed
  have elements : (s.indexing options locate).elements canceled log = kept.output.toList := by
    rw [Context.elements, show Session.outcome _ _ = _ from collected]
  rw [elements]
  refine ⟨taken, ?_⟩
  have records := Session.records_collected (s.indexing options locate)
  have distinct := (Session.traced_run records rfl collected).wellFormed.ordered.distinct
  obtain ⟨described, -⟩ := Session.described_run records rfl collected
  have held := (follows (follows_start reached.sound p) distinct taken).flush
  obtain ⟨n, d, node, document, id, r, range, home, span, owner⟩ :=
    range_of_identifier collected proper clean indexed inside kind binding
  have vertex := described.symbols _ n node
  have begun := (described.documents _ d document).1
  obtain ⟨number, mapped⟩ := held.symbols.mapped n.resultSet ⟨n.vertex, vertex⟩
  obtain ⟨row, stands, rfl, body, hover, aliasOf, listed, shape⟩ := held.symbol? mapped
  obtain rfl := Graph.Body.resultSet.inj (body_unique distinct vertex listed)
  have flushed := GraphWriter.flush_eq (kept.replayed (s.indexing options locate)
    (.start store.database p)).output
  refine ⟨n, row, node, ?_, ⟨hover, aliasOf, shape⟩, fun position covers => ?_⟩
  · rw [flushed] at mapped
    exact mapped
  · refine held.answers distinct (by rw [flushed]) mapped (by exact open_) rfl ?_
    refine held.symbolAt? distinct begun rfl (fun id d' member same => ?_)
      ⟨id, r, range, home, by rw [span]; exact covers⟩ (fun id r range home covers' => ?_) mapped
      stands
    · exact document_unique collected proper clean (clean.indexed proper indexed) document member
        same
    · exact range_at_identifier collected proper clean indexed inside alone node document covers
        range home covers'

/-! ### A function and its call, and two names at one place -/

/-- A file with a function and a call of it. -/
def calling : Sketch :=
  let s := (Sketch.addFile {} "/repo/a.go").2
  let s := (s.addSymbol "f" "f" {}).2
  let s := (s.define ⟨0⟩ .function "f" 0).2
  (s.addUse ⟨0⟩ 0).2

theorem drawn_calling : calling.Drawn := by
  have inside : (⟨0⟩ : NodeId).index < 1 := by decide
  have declared := ((Sketch.Drawn.blank.file "/repo/a.go").symbol "f" "f" {}).define
    inside .function "f" 0
  exact declared.addUse (by decide) 0

/-- A file in which a declaration of the identifier kind and its name denote two symbols. -/
def twins : Sketch :=
  let s := (Sketch.addFile {} "/repo/a.go").2
  let s := (s.addSymbol "x" "x" {}).2
  let s := (s.addSymbol "y" "y" {}).2
  let s := (s.declare ⟨0⟩ .identifier "f").2
  (s.bind ⟨1⟩ 0).bind ⟨2⟩ 1

theorem drawn_twins : twins.Drawn := by
  have symbols := ((Sketch.Drawn.blank.file "/repo/a.go").symbol "x" "x" {}).symbol "y" "y" {}
  have inside : (⟨0⟩ : NodeId).index < 1 := by decide
  exact ((symbols.declare inside .identifier "f").bind ⟨1⟩ 0).bind ⟨2⟩ 1

/-- What is indexed below `/repo`, in one package. -/
abbrev inRepo (s : Sketch) : Context Sketch.AliasLog GraphWriter :=
  s.indexing { root := "/repo" } fun _ => some { path := "p" }

theorem indexed_answers_calling :
    calling.Drawn ∧ calling.Clean { root := "/repo" } ∧
    ∃ (stats : Stats) (t : State Sketch.AliasLog GraphWriter),
      Yields (run (inRepo calling) false) (.start (inRepo calling) [] (.start {} { name := "p" }))
        (stats, none) t ∧
      ∃ file ∈ calling.oracle.files, ∃ name ∈ file.nodes, name.kind = .identifier ∧
      ∃ bound, calling.symbolAt name.id = some bound ∧
      ∃ n row, t.symbols.get? bound.symbol.key = some n ∧
        t.output.symbols.get? n.resultSet = some row.id ∧
        Answers { database := t.output.flush.database } "p"
          ((inRepo calling).elements false []) n.resultSet row
          (displayPath "/repo" file.root.file) name.span.start := by
  have clean : calling.Clean { root := "/repo" } :=
    ⟨by decide +kernel, by decide +kernel, by decide +kernel⟩
  have completed : (Session.outcome (run (inRepo calling) false)
      (.start (inRepo calling) [] (.start {} { name := "p" }))).1.toOption =
        some ({ documents := 1, symbols := 1, definitions := 1, references := 1 }, none) := by
    decide +kernel
  have ran := Session.yields_of_answer completed
  have opened : ({} : Store).isOpen = true := rfl
  have indexed : calling.tree ⟨0⟩ ∈ calling.oracle.files := List.mem_singleton_self _
  have inside : calling.node ⟨3⟩ ∈ (calling.tree ⟨0⟩).nodes := by decide +kernel
  have binding : calling.symbolAt ⟨3⟩ = some (calling.symbol 0) := by rfl
  have alone : ∀ other ∈ (calling.tree ⟨0⟩).nodes, ∀ b ∈ calling.symbolAt other.id,
      b.symbol.key = (calling.symbol 0).symbol.key := by
    decide +kernel
  obtain ⟨-, n, row, node, mapped, -, answers⟩ :=
    indexed_answers drawn_calling clean opened .empty { name := "p" } ran indexed inside rfl binding
      fun other member _ _ b bound => alone other member b bound
  exact ⟨drawn_calling, clean, _, _, ran, _, indexed, _, inside, rfl, _, binding, n, row, node,
    mapped, answers _ (by decide +kernel)⟩

/-- Where two symbols meet, the store answers with the other one. -/
theorem indexed_answers_twins :
    twins.Drawn ∧ twins.Clean { root := "/repo" } ∧
    ∃ (stats : Stats) (t : State Sketch.AliasLog GraphWriter),
      Yields (run (inRepo twins) false) (.start (inRepo twins) [] (.start {} { name := "p" }))
        (stats, none) t ∧
      ∃ file ∈ twins.oracle.files, ∃ name ∈ file.nodes, name.kind = .identifier ∧ name.name ≠ "" ∧
      ∃ bound, twins.symbolAt name.id = some bound ∧
      ∃ n row, t.symbols.get? bound.symbol.key = some n ∧
        Database.covers name.span name.span.start = true ∧
        Store.symbolAt { database := t.output.flush.database } "p"
          (displayPath "/repo" file.root.file) name.span.start = .ok row ∧
        t.output.symbols.get? n.resultSet ≠ some row.id := by
  have clean : twins.Clean { root := "/repo" } :=
    ⟨by decide +kernel, by decide +kernel, by decide +kernel⟩
  have completed : (Session.outcome (run (inRepo twins) false)
      (.start (inRepo twins) [] (.start {} { name := "p" }))).1.toOption =
        some ({ documents := 1, symbols := 2, definitions := 0, references := 2 }, none) := by
    decide +kernel
  have ran := Session.yields_of_answer completed
  have crossed : (fun t : State Sketch.AliasLog GraphWriter =>
      (t.symbols.get? "y").any fun n =>
        let ranges := t.output.flush.database.covering "p"
          (displayPath "/repo" (twins.tree ⟨0⟩).root.file) (twins.node ⟨2⟩).span.start
        decide (ranges.Pairwise fun a b => Database.isTighter a.span b.span) &&
        (ranges.head?.bind fun r => t.output.flush.database.symbol? r.symbol).any fun row =>
          t.output.symbols.get? n.resultSet ≠ some row.id)
      (Session.outcome (run (inRepo twins) false)
        (.start (inRepo twins) [] (.start {} { name := "p" }))).2 = true := by
    decide +kernel
  refine ⟨drawn_twins, clean, _, _, ran, twins.tree ⟨0⟩, List.mem_singleton_self _, twins.node ⟨2⟩,
    by decide +kernel, rfl, by decide +kernel, twins.symbol 1, rfl, ?_⟩
  generalize (Session.outcome (run (inRepo twins) false)
    (.start (inRepo twins) [] (.start {} { name := "p" }))).2 = t at crossed ⊢
  obtain ⟨n, node, crossed⟩ := (Option.any_eq_true _ _).1 crossed
  obtain ⟨sorted, crossed⟩ := Bool.and_eq_true_iff.1 crossed
  obtain ⟨row, first, differs⟩ := (Option.any_eq_true _ _).1 crossed
  refine ⟨n, row, node, by decide +kernel, ?_, of_decide_eq_true differs⟩
  rw [← Database.symbolAt?_of_pairwise (of_decide_eq_true sorted)] at first
  exact symbolAt_of_open rfl first

end Store

end SymbolAtlas
