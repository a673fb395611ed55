/-
# SymbolAtlas.Proofs.Store.Acceptance -- a store takes every run, and its summary is that of the run

A writer refuses an element that mentions something it has no row for, and a second document of
one address.  A stream whose links lead back gives it no reason to (`Ready.take`): `Ready` says
that the writer has something for every vertex of the stream, and that the rows of its project are
as many as the elements that they stand for.

So a store takes what a completed run emits, the run that indexes into it is completed with the
same counters, and the summary of the project repeats them (`run_summarized`).
-/
import Mathlib
import SymbolAtlas.Proofs.Session.Tally
import SymbolAtlas.Proofs.Store.Answering
import SymbolAtlas.Store.Summary

set_option autoImplicit false

namespace SymbolAtlas.Store

open SymbolAtlas.Graph (Id Element Body Holds Tally)

/-! ## Rows in numbers -/

/-- The numbers of the rows of a project. -/
def Database.tally (db : Database) (project : String) : Tally :=
  let ranges := db.ranges.toList.filter (·.project = project)
  { documents := db.documents.toList.countP (·.project = project)
    symbols := db.symbols.toList.countP (·.project = project)
    definitions := ranges.countP (·.role = "definition")
    references := ranges.countP fun r => ¬ r.role = "definition"
    monikers := db.monikers.toList.countP (·.project = project) }

/-- A change of symbols that leaves them to their projects changes no number. -/
theorem Database.tally_modifySymbol (db : Database) (project : String) (id : RowId)
    {f : SymbolRow → SymbolRow} (same : ∀ s, (f s).project = s.project) :
    (db.modifySymbol id f).tally project = db.tally project := by
  have symbols : (db.modifySymbol id f).symbols.toList.countP (·.project = project) =
      db.symbols.toList.countP (·.project = project) := by
    rw [Database.modifySymbol, Array.toList_map, List.countP_map]
    refine List.countP_congr fun s _ => ?_
    by_cases here : s.id = id <;> simp [here, same]
  unfold Database.tally
  rw [symbols]
  rfl

/-- A project whose graph is gone has no rows. -/
theorem Database.tally_clearGraph (db : Database) (project : String) :
    (db.clearGraph project).tally project = {} := by
  have symbols : (db.clearGraph project).symbols.toList.countP (·.project = project) = 0 := by
    rw [List.countP_eq_zero, Database.clearGraph]
    intro row member own
    obtain ⟨s, kept, rfl⟩ := Array.mem_map.1 (Array.mem_toList_iff.1 member)
    exact of_decide_eq_true (Array.mem_filter.1 kept).2 (of_decide_eq_true own)
  unfold Database.tally
  rw [symbols]
  simp [Database.clearGraph, List.countP_eq_length_filter, List.filter_filter]

/-- How often the labels of a list occur adds up to its length. -/
theorem sum_countLabels (labels : List String) :
    ((countLabels labels).map (·.count)).sum = labels.length := by
  have sorted : ((countLabels labels).map (·.count)).Perm
      (labels.eraseDups.map fun label => labels.count label) := by
    unfold countLabels
    refine ((List.mergeSort_perm _ _).map _).trans (.of_eq ?_)
    rw [List.map_map]
    rfl
  have labels_ : labels.eraseDups.Perm labels.dedup :=
    (List.perm_ext_iff_of_nodup (nodup_eraseDups labels) (List.nodup_dedup labels)).2
      fun label => by simp
  rw [sorted.sum_eq, (labels_.map _).sum_eq, List.sum_map_count_dedup_eq_length]

/-- What a summary says of the numbers of a project: each of them, and that the frequencies of
the labels add up to it. -/
structure Summary.Agrees (summary : Summary) (t : Tally) : Prop where
  documents : summary.documents = t.documents
  symbols : summary.symbols = t.symbols
  monikers : summary.monikers = t.monikers
  ranges : summary.ranges = t.definitions + t.references
  variants : (summary.variants.map (·.count)).sum = t.symbols
  monikerKinds : (summary.monikerKinds.map (·.count)).sum = t.monikers
  definitionKinds : (summary.definitionKinds.map (·.count)).sum = t.definitions

/-- **A summary counts the rows of its project.** -/
theorem summary_agrees (db : Database) (project : String) :
    (db.summary project).Agrees (db.tally project) where
  documents := List.countP_eq_length_filter.symm
  symbols := List.countP_eq_length_filter.symm
  monikers := List.countP_eq_length_filter.symm
  ranges := by
    simp only [Database.summary, Database.tally]
    rw [List.length_eq_countP_add_countP fun r : RangeRow => r.role = "definition"]
    simp only [decide_eq_true_eq]
  variants := by
    rw [Database.summary, sum_countLabels, List.length_map]
    exact List.countP_eq_length_filter.symm
  monikerKinds := by
    rw [Database.summary, sum_countLabels, List.length_map]
    exact List.countP_eq_length_filter.symm
  definitionKinds := by
    rw [Database.summary, sum_countLabels, List.length_map]
    exact List.countP_eq_length_filter.symm

/-! ## A writer that is ready for more -/

namespace GraphWriter

variable {w w' : GraphWriter} {stream : List Element} {id : Id}

/-- A writer has something for a vertex of this sort. -/
def Knows (w : GraphWriter) : Graph.Vertex → Id → Prop
  | .document, id => ∃ row, w.documents.get? id = some row
  | .resultSet, id => ∃ row, w.symbols.get? id = some row
  | .range, id => ∃ row, w.ranges.get? id = some row
  | .moniker, id => ∃ m, w.monikers.get? id = some m
  | .project, _ | .hover, _ => True

/-- A writer that is ready for what may follow a stream: it has something for every vertex, and
the rows of its project are those of the stream. -/
structure Ready (stream : List Element) (w : GraphWriter) : Prop where
  knows : ∀ v id, Holds stream v id → w.Knows v id
  addresses : ∀ row ∈ w.database.documents, row.project = w.project →
    ∃ id d, ⟨id, .document d⟩ ∈ stream ∧ d.uri = row.uri
  tally : w.database.tally w.project = Graph.tally stream

theorem ready_start (db : Database) (p : Project) : Ready [] (start db p) where
  knows v id holds := by
    obtain ⟨e, member, -⟩ := holds
    cases member
  addresses row member own :=
    absurd own (of_decide_eq_true (Array.mem_filter.1 member).2)
  tally := Database.tally_clearGraph _ _

/-- What a table finds it still finds after a write. -/
theorem found_insert {ν : Type} {table : Table Id ν} {key other : Id} {value : ν}
    (found : ∃ v, table.get? other = some v) : ∃ v, (table.insert key value).get? other = some v := by
  rw [Table.get?_insert]
  split
  · exact ⟨value, rfl⟩
  · exact found

/-- A writer that knows more and has something for the next vertex. -/
theorem knows_snoc {e : Element} (h : ∀ v id, Holds stream v id → w.Knows v id)
    (more : ∀ v id, w.Knows v id → w'.Knows v id)
    (new : ∀ v, e.body.vertex? = some v → w'.Knows v e.id) :
    ∀ v id, Holds (stream ++ [e]) v id → w'.Knows v id := by
  rintro v id ⟨other, member, rfl, sort⟩
  rcases List.mem_append.1 member with old | last
  · exact more v _ (h v _ ⟨other, old, rfl, sort⟩)
  · obtain rfl := List.mem_singleton.1 last
    exact new v sort

/-- A document before the last element. -/
theorem addressed_snoc {uri : String} {e : Element}
    (h : ∃ id d, ⟨id, .document d⟩ ∈ stream ∧ Graph.Document.uri d = uri) :
    ∃ id d, ⟨id, .document d⟩ ∈ stream ++ [e] ∧ d.uri = uri := by
  obtain ⟨id, d, member, same⟩ := h
  exact ⟨id, d, List.mem_append_left _ member, same⟩

/-- An element that writes no row of its own. -/
theorem Ready.beside {e : Element} (h : Ready stream w) (project : w'.project = w.project)
    (documents : w'.database.documents = w.database.documents)
    (tables : ∀ v id, w.Knows v id → w'.Knows v id)
    (new : ∀ v, e.body.vertex? = some v → w'.Knows v e.id)
    (counted : w'.database.tally w.project = (w.database.tally w.project).add e.body) :
    Ready (stream ++ [e]) w' where
  knows := knows_snoc h.knows tables new
  addresses row member own :=
    addressed_snoc (h.addresses row (documents ▸ member) (own.trans project))
  tally := by rw [project, counted, h.tally, Graph.tally_snoc]

/-- What is no vertex need not be known. -/
theorem knows_of_edge {e : Element} (edge : e.body.vertex? = none) (w : GraphWriter)
    (v : Graph.Vertex) : e.body.vertex? = some v → w.Knows v e.id := fun sort =>
  (Option.some_ne_none v (sort.symm.trans edge)).elim

/-- An element that leaves the writer as it is. -/
theorem Ready.idle {e : Element} (h : Ready stream w)
    (new : ∀ v, e.body.vertex? = some v → w.Knows v e.id)
    (counted : ∀ t : Tally, t.add e.body = t) : Ready (stream ++ [e]) w :=
  h.beside rfl rfl (fun _ _ known => known) new (counted _).symm

/-- A writer that takes an element is what writing it comes to. -/
theorem sink_of_effect {e : Element} (taken : effect (write e) w = (.ok (), w')) :
    sink e w = .ok { w' with written := w'.written + 1 } := by
  have ran : (write e).run w = (.ok (), w') := taken
  unfold sink emit
  rw [ran]

theorem Ready.counted (h : Ready stream w) (n : Nat) : Ready stream { w with written := n } :=
  ⟨h.knows, h.addresses, h.tally⟩

theorem Ready.document (h : Ready stream w) {d : Graph.Document} :
    Ready (stream ++ [⟨id, .document d⟩]) (w.withDocument id d) where
  knows := by
    refine knows_snoc h.knows (fun v id' known => ?_) fun v sort => ?_
    · cases v with
      | document => exact found_insert known
      | _ => exact known
    · cases sort
      exact ⟨_, Table.get?_insert_self _ _ _⟩
  addresses row member own := by
    rcases Array.mem_push.1 member with old | rfl
    · exact addressed_snoc (h.addresses row old own)
    · exact ⟨id, d, by simp, rfl⟩
  tally := by
    rw [Graph.tally_snoc, ← h.tally]
    have counted : (w.withDocument id d).database.documents.toList.countP
        (·.project = w.project) = w.database.documents.toList.countP (·.project = w.project) + 1 := by
      simp [withDocument, documentRow]
    exact congrArg (fun n => { w.database.tally w.project with documents := n }) counted

theorem Ready.symbol (h : Ready stream w) {s : Graph.ResultSet} :
    Ready (stream ++ [⟨id, .resultSet s⟩]) (w.withSymbol id s) := by
  refine h.beside rfl rfl (fun v id' known => ?_) (fun v sort => ?_) ?_
  · cases v with
    | resultSet => exact found_insert known
    | _ => exact known
  · cases sort
    exact ⟨_, Table.get?_insert_self _ _ _⟩
  · simp [Database.tally, withSymbol, symbolRow, Tally.add]

theorem Ready.range (h : Ready stream w) {r : Graph.Range} {document symbol : RowId} :
    Ready (stream ++ [⟨id, .range r⟩]) (w.withRange id document symbol r) := by
  refine h.beside rfl rfl (fun v id' known => ?_) (fun v sort => ?_) ?_
  · cases v with
    | range => exact found_insert known
    | _ => exact known
  · cases sort
    exact ⟨_, Table.get?_insert_self _ _ _⟩
  · by_cases role : r.role.name = "definition" <;>
      simp [Database.tally, withRange, rangeRow, Tally.add, role, List.filter_append]

/-- Items of known ranges are all collected. -/
theorem effect_addItems_of_known {symbol : RowId} {property : String} {ids : List Id}
    (known : ∀ id ∈ ids, ∃ row, w.ranges.get? id = some row) :
    ∃ rows : List RowId, effect (addItems symbol property ids) w =
      (.ok (), rows.foldl (withItem symbol property) w) := by
  induction ids generalizing w with
  | nil => exact ⟨[], rfl⟩
  | cons id ids ih =>
      obtain ⟨row, here⟩ := known id List.mem_cons_self
      obtain ⟨rows, rest⟩ := ih (w := withItem symbol property w row) fun other member => by
        rw [ranges_withItem]
        exact known other (List.mem_cons_of_mem _ member)
      refine ⟨row :: rows, ?_⟩
      rw [addItems, effect_get_bind]
      simp only [here]
      exact rest

/-- A symbol that keeps its project. -/
theorem Ready.touched (h : Ready stream w) {e : Element} (edge : e.body.vertex? = none)
    (counted : ∀ t : Tally, t.add e.body = t) {symbol : RowId} {f : SymbolRow → SymbolRow}
    (same : ∀ s, (f s).project = s.project) :
    Ready (stream ++ [e]) { w with database := w.database.modifySymbol symbol f } :=
  h.beside rfl rfl (fun _ _ known => known) (knows_of_edge edge _)
    ((Database.tally_modifySymbol _ _ _ same).trans (counted _).symm)

/-- A symbol that gets a moniker. -/
theorem Ready.labelled (h : Ready stream w) {outV inV : Id} {symbol : RowId} {m : Moniker} :
    Ready (stream ++ [⟨id, .monikerEdge outV inV⟩]) (w.withMoniker symbol m) := by
  refine h.beside rfl rfl (fun _ _ known => known) (knows_of_edge rfl _) ?_
  simp [Database.tally, withMoniker, Tally.add]

/-- Items that are collected or written. -/
theorem Ready.collected (h : Ready stream w) {i : Graph.Item} (symbol : RowId)
    (rows : List RowId) :
    Ready (stream ++ [⟨id, .item i⟩]) (rows.foldl (withItem symbol i.property.name) w) := by
  obtain ⟨items, pending, shape⟩ := withItems_eq symbol i.property.name w rows
  rw [shape]
  exact h.beside rfl rfl (fun _ _ known => known) (knows_of_edge rfl _) rfl

theorem Ready.flush (h : Ready stream w) : Ready stream w.flush := by
  rw [flush_eq]
  exact ⟨h.knows, h.addresses, h.tally⟩

/-- A document is refused only if there is one of its address. -/
theorem Ready.unclashed (h : Ready stream w) {d : Graph.Document}
    (new : ∀ id d', ⟨id, .document d'⟩ ∈ stream → d'.uri ≠ d.uri) :
    ¬ (w.database.documents.any fun row => row.project = w.project ∧ row.uri = d.uri) = true := by
  rw [Array.any_eq_true']
  rintro ⟨row, member, clash⟩
  obtain ⟨own, address⟩ := of_decide_eq_true clash
  obtain ⟨id, d', inside, shown⟩ := h.addresses row member own
  exact new id d' inside (shown.trans address)

/-- **A writer takes an element that is linked in what it took**, unless it is a second document
of one address, and is ready for more. -/
theorem Ready.take (h : Ready stream w) {e : Element} (linked : e.body.LinkedIn stream)
    (new : ∀ d, e.body = .document d → ∀ id d', ⟨id, .document d'⟩ ∈ stream → d'.uri ≠ d.uri) :
    ∃ w', sink e w = .ok w' ∧ Ready (stream ++ [e]) w' := by
  suffices taken : ∃ w', effect (write e) w = (.ok (), w') ∧ Ready (stream ++ [e]) w' by
    obtain ⟨w', taken, ready⟩ := taken
    exact ⟨_, sink_of_effect taken, ready.counted _⟩
  obtain ⟨id, body⟩ := e
  cases body with
  | document d =>
      refine ⟨w.withDocument id d, ?_, h.document⟩
      rw [effect_write_document, if_neg (h.unclashed (new d rfl))]
  | resultSet s => exact ⟨w.withSymbol id s, rfl, h.symbol⟩
  | range r =>
      obtain ⟨document, home⟩ := h.knows _ _ linked.1
      obtain ⟨symbol, owner⟩ := h.knows _ _ linked.2
      refine ⟨w.withRange id document symbol r, ?_, h.range⟩
      simp only [effect_write_range, home, owner]
  | moniker m =>
      refine ⟨_, rfl, h.beside rfl rfl (fun v id' known => ?_) (fun v sort => ?_) rfl⟩
      · cases v with
        | moniker => exact found_insert known
        | _ => exact known
      · cases sort
        exact ⟨_, Table.get?_insert_self _ _ _⟩
  | hover contents =>
      refine ⟨_, rfl, h.beside rfl rfl (fun _ _ known => known) (fun v sort => ?_) rfl⟩
      cases sort
      trivial
  | monikerEdge outV inV =>
      obtain ⟨symbol, owner⟩ := h.knows _ _ linked.1
      obtain ⟨moniker, found⟩ := h.knows _ _ linked.2
      refine ⟨w.withMoniker symbol moniker, ?_, h.labelled⟩
      simp only [effect_write_monikerEdge, found, owner]
  | hoverEdge outV inV =>
      obtain ⟨symbol, owner⟩ := h.knows _ _ linked.1
      have taken := @effect_write_hoverEdge id outV inV w
      simp only [owner] at taken
      exact ⟨_, taken, h.touched rfl (fun _ => rfl) fun _ => rfl⟩
  | next outV inV =>
      obtain ⟨origin, owner⟩ := h.knows _ _ linked.1
      obtain ⟨target, found⟩ := h.knows _ _ linked.2
      have taken := @effect_write_next id outV inV w
      simp only [owner, found] at taken
      exact ⟨_, taken, h.touched rfl (fun _ => rfl) fun _ => rfl⟩
  | item i =>
      obtain ⟨symbol, owner⟩ := h.knows _ _ linked.1
      have ranges : ∀ id ∈ i.inVs, ∃ row, w.ranges.get? id = some row := fun id member =>
        h.knows _ _ (linked.2.1 id member)
      obtain ⟨rows, taken⟩ : ∃ rows : List RowId,
          effect (addItems symbol i.property.name i.inVs) w =
            (.ok (), rows.foldl (withItem symbol i.property.name) w) :=
        effect_addItems_of_known ranges
      refine ⟨_, ?_, h.collected symbol rows⟩
      simp only [effect_write_item, owner, taken]
  | contains outV inVs =>
      have idle : Ready (stream ++ [⟨id, .contains outV inVs⟩]) w :=
        h.idle (knows_of_edge rfl _) fun _ => rfl
      refine ⟨_, effect_write_contains outV inVs w, ?_⟩
      split
      · exact idle
      · exact idle.flush
  | metadata => exact ⟨w, rfl, h.idle (knows_of_edge rfl _) fun _ => rfl⟩
  | project =>
      refine ⟨w, rfl, h.idle (fun v sort => ?_) fun _ => rfl⟩
      cases sort
      trivial
  | foreign => exact absurd linked not_false

/-- **A writer takes every stream whose links lead back** and whose documents have different
addresses. -/
theorem takes_of_ordered {stream : List Element} (ordered : Graph.Ordered stream)
    (unique : ∀ id d id' d', ⟨id, .document d⟩ ∈ stream → ⟨id', .document d'⟩ ∈ stream →
      Graph.Document.uri d = Graph.Document.uri d' → id = id') (db : Database) (p : Project) :
    ∃ w, sink.Takes (start db p) stream w ∧ Ready stream w := by
  induction stream using List.reverseRecOn with
  | nil => exact ⟨_, Graph.takes_nil, ready_start db p⟩
  | append_singleton stream e ih =>
      obtain ⟨w, before, ready⟩ := ih ordered.of_append fun id d id' d' member member' =>
        unique id d id' d' (List.mem_append_left _ member) (List.mem_append_left _ member')
      obtain ⟨number, linked⟩ := ordered stream e [] rfl
      have new : ∀ d, e.body = .document d → ∀ id d', ⟨id, .document d'⟩ ∈ stream →
          d'.uri ≠ d.uri := by
        intro d body id d' member same
        have last : ⟨e.id, .document d⟩ ∈ stream ++ [e] := by simp [← body]
        obtain rfl := unique id d' e.id d (List.mem_append_left _ member) last same
        have below : e.id ≤ (stream.length : Int) :=
          ordered.of_append.holds_le ⟨_, member, rfl, rfl⟩
        rw [number] at below
        exact absurd below (Int.not_le.2 (Int.lt_succ _))
      obtain ⟨w', taken, ready'⟩ := ready.take linked new
      exact ⟨w', Graph.takes_snoc.2 ⟨w, before, taken⟩, ready'⟩

theorem keeps_of_takes (taken : sink.Takes w stream w') :
    w'.project = w.project ∧ w'.database.projects = w.database.projects := by
  induction stream using List.reverseRecOn generalizing w' with
  | nil =>
      obtain rfl : w = w' := Except.ok.inj taken
      exact ⟨rfl, rfl⟩
  | append_singleton stream e ih =>
      obtain ⟨u, before, last⟩ := Graph.takes_snoc.1 taken
      obtain ⟨v, taking, rfl⟩ := taking_of_sink last
      obtain ⟨project, projects⟩ := taking.keeps
      obtain ⟨same, recorded⟩ := ih before
      exact ⟨project.trans same, projects.trans recorded⟩

end GraphWriter

/-- The summary of the project that a writer has written. -/
theorem summary_of_takes {store : Store} (open_ : store.isOpen = true) {p : Project}
    {stream : List Element} {w : GraphWriter}
    (taken : GraphWriter.sink.Takes (.start store.database p) stream w)
    (ready : w.Ready stream) :
    ∃ summary, Store.summary { store with database := w.flush.database } p.name = .ok summary ∧
      summary.Agrees (Graph.tally stream) := by
  obtain ⟨project, projects⟩ := GraphWriter.keeps_of_takes taken
  have recorded : w.flush.database.projects.get? p.name = some p := by
    rw [GraphWriter.flush_eq]
    show w.database.projects.get? p.name = _
    rw [projects]
    exact Table.get?_insert_self _ _ _
  have found : Store.project { store with database := w.flush.database } p.name = .ok p := by
    simp only [Store.project, ask, open_, if_true, bind, Except.bind, recorded]
    rfl
  have tally : w.flush.database.tally p.name = Graph.tally stream := by
    rw [GraphWriter.flush_eq, ← ready.tally, project]
    rfl
  refine ⟨w.flush.database.summary p.name, ?_, tally ▸ summary_agrees _ _⟩
  rw [Store.summary, found]
  rfl

end SymbolAtlas.Store

namespace SymbolAtlas

open Session (Context State Stats Yields run)

/-- The same session with the writer of a store as its sink. -/
def Session.Context.stored {μ ω : Type} (c : Context μ ω) : Context μ Store.GraphWriter where
  oracle := c.oracle
  sink := Store.GraphWriter.sink
  options := c.options
  locate := c.locate

namespace Store

/-- **A store takes what a completed run emits, and its summary repeats the counters of the run.**
Take any oracle over which a run is completed that only collects its elements.  The run that
indexes into any open store is completed too, with the same counters; the writer has taken every
element of the stream; and the summary of the project has as many documents, symbols and monikers
as the counters say, as many ranges as there are definitions and references, and frequencies of
labels that add up to these numbers. -/
theorem run_summarized {μ ω : Type} {c : Context μ ω} {canceled : Cancellation Nat} {memory : μ}
    {stats : Stats} {kept : State μ (Array Graph.Element)}
    (completed : Yields (run c.collected canceled) (.start c.collected memory #[]) (stats, none)
      kept) {store : Store} (open_ : store.isOpen = true) (p : Project) :
    ∃ t, Yields (run c.stored canceled) (.start c.stored memory (.start store.database p))
        (stats, none) t ∧
      GraphWriter.sink.Takes (.start store.database p) kept.output.toList t.output ∧
      stats.tally = Graph.tally kept.output.toList ∧
      ∃ summary, Store.summary { store with database := t.output.flush.database } p.name =
          .ok summary ∧ summary.Agrees stats.tally := by
  have records := Session.records_collected c
  have ordered := (Session.traced_run records rfl completed).wellFormed.ordered
  have counted := Session.tally_run records rfl completed
  obtain ⟨w, taken, ready⟩ := GraphWriter.takes_of_ordered ordered
    (fun _ _ _ _ member member' => Session.uri_unique_run records rfl completed member member')
    store.database p
  obtain ⟨stats', t, ran, hears⟩ :=
    Session.run_replayed c.stored (.start store.database p) completed
  have outcome : (t.output, t.failure) = (w, none) :=
    hears.trans (Session.heard_of_takes taken)
  obtain ⟨rfl, ok⟩ := Prod.mk.inj outcome
  rw [ok] at ran
  obtain ⟨kept', collected, -, -⟩ := Session.run_collected ran
  obtain ⟨same, -⟩ := completed.unique collected
  obtain rfl : stats = stats' := (Prod.mk.inj same).1
  exact ⟨t, ran, taken, counted, counted ▸ summary_of_takes open_ taken ready⟩

theorem run_summarized_cyclic :
    ∃ stats kept, Yields (run Session.cyclicContext.collected false)
        (.start Session.cyclicContext.collected [] #[]) (stats, none) kept ∧
      ∃ t, Yields (run Session.cyclicContext.stored false)
          (.start Session.cyclicContext.stored [] (.start {} { name := "p" })) (stats, none) t ∧
        GraphWriter.sink.Takes (.start {} { name := "p" }) kept.output.toList t.output ∧
        ∃ summary, Store.summary { database := t.output.flush.database } "p" = .ok summary ∧
          (summary.documents, summary.symbols, summary.ranges, summary.monikers) = (1, 4, 4, 0) := by
  have completed : (Session.outcome (run Session.cyclicContext.collected false)
      (.start Session.cyclicContext.collected [] #[])).1.toOption =
        some ({ documents := 1, symbols := 4, definitions := 2, references := 2 }, none) := by
    decide +kernel
  have ran := Session.yields_of_answer completed
  have opened : ({} : Store).isOpen = true := rfl
  obtain ⟨t, stored, taken, -, summary, answered, agrees⟩ :=
    run_summarized ran opened { name := "p" }
  refine ⟨_, _, ran, t, stored, taken, summary, answered, ?_⟩
  rw [agrees.documents, agrees.symbols, agrees.ranges, agrees.monikers]
  rfl

end Store
end SymbolAtlas
