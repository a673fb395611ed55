/-
# SymbolAtlas.Proofs.Session.Positions -- occurrences are told apart by where they start

A reader of the stream names an occurrence by its file and by where it starts.  That is enough
for the occurrences of one symbol if the names of the program are told apart so (`Context.Spread`).

In a file that the run visits there is one range for each identifier at most, so the ranges of
the file start where different identifiers do (`starts_performed`).  In another file there are
definitions only, and a symbol has one of them for each of its marks.  What a symbol lists
besides its own ranges are references, so they stand in files of the run (`listed_apart`).
-/
import SymbolAtlas.Proofs.Session.Occurrences
import SymbolAtlas.Proofs.Session.Outliers
import SymbolAtlas.Proofs.Session.Charted

set_option autoImplicit false

namespace SymbolAtlas.Session

open SymbolAtlas.Graph (Id Element)
open Text (Position)

variable {μ ω : Type} {c : Context μ ω} {view : ω → List Element}

/-- **Names are told apart by where they start.**  No two identifiers of the files start at one
place of a file, and two declarations in another file whose names start at one place have their
names there both. -/
structure Context.Spread (c : Context μ ω) (start : μ) : Prop where
  identifiers : ((Tree.identifiers c.oracle.files).map fun x => (x.1, x.2.span.start)).Nodup
  marks : ∀ {m : μ} {id id' : NodeId}, c.oracle.Shown start m id → c.oracle.Shown start m id' →
    (siteIn c m id).file ∉ c.oracle.files.map (·.root.file) →
    (siteIn c m id).file = (siteIn c m id').file →
    (siteIn c m id).span.start = (siteIn c m id').span.start → siteIn c m id = siteIn c m id'

/-! ## Files of the run -/

/-- A run comes to no identifier twice. -/
theorem named_firsts_sublist (seen : List String) (files : List Tree) :
    (((Tree.firsts seen files).flatMap Tree.passage).filterMap Moment.named?).Sublist
      (Tree.identifiers files) := by
  induction files generalizing seen with
  | nil => exact List.nil_sublist _
  | cons file rest ih =>
      have own : Tree.identifiers (file :: rest) =
          Tree.identifiers [file] ++ Tree.identifiers rest := by
        simp [Tree.identifiers]
      rw [Tree.firsts, own]
      split
      · exact (ih seen).trans (List.sublist_append_right _ _)
      · rw [List.flatMap_cons, List.filterMap_append, named_passage]
        exact (List.Sublist.refl _).append (ih _)

/-- What a run has seen starts elsewhere than what it comes to next. -/
theorem start_not_mem_sightings
    (spread : ((Tree.identifiers c.oracle.files).map fun x => (x.1, x.2.span.start)).Nodup)
    {first rest : List Moment} {m : Moment} (split : schedule c.oracle.files = first ++ m :: rest)
    {path : String} {name : Node} (named : m.named? = some (path, name)) {s : State μ ω}
    {x : Sighting} (seen : x ∈ sightings c first s) (here : x.path = path) :
    x.name.span.start ≠ name.span.start := by
  have apart := ((named_firsts_sublist [] c.oracle.files).map
    fun x => (x.1, x.2.span.start)).nodup spread
  rw [← schedule, split, List.filterMap_append, List.filterMap_cons_some named, List.map_append,
    List.map_cons] at apart
  have earlier : (x.path, x.name) ∈ first.filterMap Moment.named? :=
    names_sightings_moments (c := c) first s ▸ List.mem_map_of_mem seen
  intro same
  refine (List.nodup_append.1 apart).2.2 _ (List.mem_map_of_mem earlier) _ List.mem_cons_self ?_
  rw [here, same]

/-- The ranges of each file of the run start at different places. -/
def State.Strewn (view : ω → List Element) (s : State μ ω) : Prop :=
  ∀ path ∈ s.traversal, ((s.rangesAt view path).map (·.2.span.start)).Nodup

theorem State.Strewn.still (records : c.sink.Records view) {s s' : State μ ω}
    (h : s.Strewn view) (steps : Steps c s s') (filed : s.Filed view) (ok : s'.failure = none)
    (still : ∀ path ∈ s.traversal, filedIn s'.documents path = filedIn s.documents path) :
    s'.Strewn view := by
  intro path visited
  rw [steps.settled.1] at visited
  rw [rangesAt_still records steps filed ok (still path visited)]
  exact h path visited

theorem State.Strewn.filing (records : c.sink.Records view) {s s' : State μ ω}
    (h : s.Strewn view) (steps : Steps c s s') (filed : s.Filed view) (ok : s'.failure = none)
    {own : String} {r : Graph.Range} (filing : s.Filing c s' own r)
    (new : ∀ entry ∈ s.rangesAt view own, entry.2.span.start ≠ r.span.start) :
    s'.Strewn view := by
  intro path visited
  rw [steps.settled.1] at visited
  by_cases here : own = path
  · subst here
    rw [filing.rangesAt records ok, List.map_append, List.nodup_append]
    refine ⟨h own visited, List.nodup_singleton _, fun start old other last same => ?_⟩
    obtain ⟨entry, member, rfl⟩ := List.mem_map.1 old
    obtain rfl := List.mem_singleton.1 last
    exact new entry member same
  · have still : filedIn s'.documents path = filedIn s.documents path := by
      obtain ⟨d, symbols, f, -, -, -, rfl⟩ := filing
      exact filedIn_modify_of_ne _ _ here
    rw [rangesAt_still records steps filed ok still]
    exact h path visited

/-- **Whatever part of its schedule a run has performed**, no two ranges of a file that it visits
start at one place. -/
theorem starts_performed (records : c.sink.Records view) {memory : μ} {output : ω}
    (empty : view output = []) (anchored : c.oracle.Anchored memory)
    (spread : ((Tree.identifiers c.oracle.files).map fun x => (x.1, x.2.span.start)).Nodup)
    {first rest : List Moment} {s : State μ ω} (split : schedule c.oracle.files = first ++ rest)
    (course : Course c first ((State.start c memory output).opened c) s)
    (ok : s.failure = none) : s.Strewn view := by
  refine deed_induction anchored (P := fun _ s => s.Strewn view) (fun _ _ => List.nodup_nil) ?_
    split course ok
  intro first m rest s s' split course ok deed steps strewn
  have ok' := steps.failure_none ok
  have filed := course.filed records empty ok'
  have quiet : s.Silent s' → s'.Strewn view := fun silent =>
    strewn.still records steps filed ok silent.filed
  cases deed with
  | opened fresh => exact quiet ⟨fun other _ => filedIn_insert fresh rfl other, rfl⟩
  | ignored unsighted => exact strewn
  | skipped sighted => exact strewn.still records steps filed ok fun _ _ => rfl
  | left shown foundings => exact quiet foundings.moves.silent
  | closed endings =>
      have turned : s.Silent { s with current := none } := ⟨fun _ _ => rfl, rfl⟩
      exact quiet (turned.trans endings.silent rfl)
  | @recorded path file n sym t _ indexed inside home sighted shown foundings recorded =>
      have okT := recorded.steps.failure_none ok
      have stepsT := foundings.moves.steps
      obtain ⟨filedT, -, -⟩ := stepsT.filed records filed okT
      have strewnT := strewn.still records stepsT filed okT foundings.moves.silent.filed
      obtain ⟨rooted, -⟩ := marked_performed anchored split course ok'
      obtain ⟨node, -, ⟨-, -, rfl⟩ | ⟨r, span, -, -, filing⟩⟩ :=
        recorded.known_or_filing anchored indexed inside (foundings.rooted anchored shown rooted)
      · exact strewnT
      · refine strewnT.filing records recorded.steps filedT ok filing fun entry member => ?_
        have visited : path ∈ s.traversal := by
          rw [course.steps.settled.1, home]
          exact List.mem_map_of_mem indexed
        rw [rangesAt_still records stepsT filed okT (foundings.moves.silent.filed path visited)]
          at member
        obtain ⟨x, seen, own, -, -, -, -, there, -⟩ :=
          (charted_performed records empty anchored split course ok').sighted path visited entry
            member
        rw [there, span]
        exact start_not_mem_sightings spread split (named_of_sighting sighted) seen own

/-! ## Other files -/

/-- Two definitions of a symbol are one if they stand at one place on record. -/
theorem SymbolNode.Attested.sites {stream : List Element} {documents : Table String DocumentNode}
    {n : SymbolNode} (h : n.Attested stream documents) {r r' : Graph.Range}
    (defined : r ∈ Graph.definitionsOf n.resultSet stream)
    (defined' : r' ∈ Graph.definitionsOf n.resultSet stream) :
    ∃ site ∈ n.recorded, ∃ site' ∈ n.recorded, site.Holds documents r ∧
      site'.Holds documents r' ∧ (site = site' → r = r') := by
  obtain ⟨i, bound, rfl⟩ := List.getElem_of_mem defined
  obtain ⟨j, bound', rfl⟩ := List.getElem_of_mem defined'
  have inside : i < n.recorded.reverse.length := h.ranges.length_eq.symm ▸ bound
  have inside' : j < n.recorded.reverse.length := h.ranges.length_eq.symm ▸ bound'
  refine ⟨_, List.mem_reverse.1 (List.getElem_mem inside), _,
    List.mem_reverse.1 (List.getElem_mem inside'), h.ranges.get inside bound,
    h.ranges.get inside' bound', fun same => ?_⟩
  obtain rfl := (List.nodup_reverse.2 h.once).getElem_inj_iff.1 same
  rfl

/-! ## What a symbol lists -/

/-- Where the ranges of a run stand when all of its symbols are frozen. -/
structure State.Laid (c : Context μ ω) (view : ω → List Element) (start : μ) (s : State μ ω) :
    Prop where
  filed : s.Filed view
  frozen : s.SymbolsFrozen
  traversal : s.traversal = c.oracle.files.map (·.root.file)
  /-- In files of the run. -/
  strewn : s.Strewn view
  /-- In other files. -/
  defining : s.Defining view
  apposite : s.Apposite c
  attested : s.symbols.All fun _ n => n.Attested (view s.output) s.documents
  shown : s.symbols.All fun _ n => ∀ id ∈ n.declarations, c.oracle.Shown start s.memory id

/-- A completed run has laid out its ranges, and its last element is none and lists none. -/
theorem laid_run (records : c.sink.Records view) {canceled : Cancellation Nat} {memory : μ}
    {output : ω} {stats : Stats} {s' : State μ ω} (empty : view output = [])
    (completed : Yields (run c canceled) (.start c memory output) (stats, none) s')
    (anchored : c.oracle.Anchored memory)
    (spread : ((Tree.identifiers c.oracle.files).map fun x => (x.1, x.2.span.start)).Nodup) :
    ∃ u : State μ ω, u.Laid c view memory ∧ ∀ id body, ⟨id, body⟩ ∈ view s'.output →
      (∀ outV inVs, body ≠ .contains outV inVs) → ⟨id, body⟩ ∈ view u.output := by
  have traversal := traversal_run completed
  obtain ⟨t, u, course, endings, frozen, ⟨okT, filed⟩, ⟨okU, filedU⟩, rfl, ok⟩ :=
    filed_run records empty completed
  have whole : schedule c.oracle.files = schedule c.oracle.files ++ [] :=
    (List.append_nil _).symm
  obtain ⟨rooted, -⟩ := marked_performed anchored whole course okT
  obtain ⟨defining, apposite⟩ := outlying_performed records empty anchored whole course okT
  have strewn := starts_performed records empty anchored spread whole course okT
  have attested := attested_performed records empty anchored whole course okT
  refine ⟨u, ⟨filedU, frozen, (traversal_concluded u).symm.trans traversal,
    strewn.still records endings.steps filed okU endings.silent.filed,
    endings.defining records filed defining okU, endings.apposite apposite,
    endings.attested records filed attested okU,
    (endings.rooted rooted).nodes.imp fun _ _ _ rooted => rooted.shown⟩, fun id body member other => ?_⟩
  obtain ⟨last, stream, concluding, -⟩ :=
    view_concluded records filedU.traced.project filedU.sorted ok
  rw [stream] at member
  rcases List.mem_append.1 member with old | new
  · exact old
  · obtain ⟨ids, joins⟩ := concluding.joins _ new
    exact absurd joins (other _ _)

theorem State.mem_rangesAt {s : State μ ω} {id : Id} {r : Graph.Range}
    (range : ⟨id, .range r⟩ ∈ view s.output) {path : String} {d : DocumentNode}
    (document : s.documents.get? path = some d) (home : r.document = d.id) :
    (id, r) ∈ s.rangesAt view path := by
  rw [State.rangesAt, document]
  exact Graph.mem_rangesIn.2 ⟨home, range⟩

namespace State.Laid

variable {s : State μ ω} {start : μ}

/-- An item edge is one of a node. -/
theorem node (laid : s.Laid c view start) {edge : Id} {i : Graph.Item}
    (item : ⟨edge, .item i⟩ ∈ view s.output) :
    ∃ key n, s.symbols.get? key = some n ∧ i ∈ Graph.itemsFrom n.resultSet (view s.output) := by
  have vertices : Graph.idsOf .resultSet (view s.output) = s.symbols.values.map (·.resultSet) :=
    laid.filed.accounted.listed
  have vertex : i.outV ∈ s.symbols.values.map (·.resultSet) := by
    rw [← vertices]
    exact Graph.mem_idsOf.2 (laid.filed.ordered.linked item).1
  obtain ⟨n, value, own⟩ := List.mem_map.1 vertex
  obtain ⟨key, node⟩ := Table.mem_values_iff.1 value
  exact ⟨key, n, node, Graph.mem_itemsFrom.2 ⟨own.symm, edge, item⟩⟩

/-- What a symbol lists in a file that the run does not visit is a definition of its own. -/
theorem defined (laid : s.Laid c view start) {key : String} {n : SymbolNode}
    (node : s.symbols.get? key = some n) {i : Graph.Item}
    (edge : i ∈ Graph.itemsFrom n.resultSet (view s.output)) {id : Id} (listed : id ∈ i.inVs)
    {r : Graph.Range} (range : ⟨id, .range r⟩ ∈ view s.output) (role : r.role = .definition) :
    r ∈ Graph.definitionsOf n.resultSet (view s.output) := by
  refine Graph.mem_definitionsOf.2 ⟨role, ?_, id, range⟩
  by_contra foreign
  obtain ⟨-, reference, -⟩ :=
    listed_foreign laid.filed.traced laid.filed.accounted laid.frozen node edge listed range foreign
  simp [role] at reference

/-- A definition at a place on record in a file that the run does not visit stands at a mark. -/
theorem marked (laid : s.Laid c view start) {key : String} {n : SymbolNode}
    (node : s.symbols.get? key = some n) {path : String} {d : DocumentNode}
    (document : s.documents.get? path = some d) (outside : path ∉ s.traversal) {r : Graph.Range}
    (home : r.document = d.id) {site : Site} (recorded : site ∈ n.recorded)
    (holds : site.Holds s.documents r) :
    site.file = path ∧ ∃ id, c.oracle.Shown start s.memory id ∧ siteIn c s.memory id = site := by
  obtain ⟨-, d', document', home'⟩ := holds
  have file : site.file = path :=
    laid.filed.sorted.path_unique laid.filed.ordered document' document (home'.symm.trans home)
  obtain ⟨id, chosen, mark⟩ :=
    List.mem_map.1 (laid.apposite key n node site recorded (file ▸ outside))
  exact ⟨file, id, laid.shown key n node id chosen, mark⟩

/-- **A symbol lists one range at a place.** -/
theorem listed_apart (laid : s.Laid c view start) (spread : c.Spread start) {i j : Graph.Item}
    (owner : i.outV = j.outV) {edge edge' : Id} (first : ⟨edge, .item i⟩ ∈ view s.output)
    (second : ⟨edge', .item j⟩ ∈ view s.output) {id id' : Id} {r r' : Graph.Range}
    (listed : id ∈ i.inVs) (listed' : id' ∈ j.inVs) (range : ⟨id, .range r⟩ ∈ view s.output)
    (range' : ⟨id', .range r'⟩ ∈ view s.output) (home : r.document = r'.document)
    (same : r.span.start = r'.span.start) : r = r' := by
  obtain ⟨path, d, document, number⟩ :=
    laid.filed.sorted.holds_iff.1 (laid.filed.ordered.linked range).1
  have document : s.documents.get? path = some d := document
  have number' : r'.document = d.id := home.symm.trans number.symm
  have member := State.mem_rangesAt range document number.symm
  have member' := State.mem_rangesAt range' document number'
  by_cases visited : path ∈ s.traversal
  · exact congrArg Prod.snd
      (List.inj_on_of_nodup_map (laid.strewn path visited) member member' same)
  · obtain ⟨key, n, node, item⟩ := laid.node first
    have item' : j ∈ Graph.itemsFrom n.resultSet (view s.output) :=
      Graph.mem_itemsFrom.2 ⟨owner.symm.trans (Graph.mem_itemsFrom.1 item).1, edge', second⟩
    obtain ⟨site, recorded, site', recorded', holds, holds', one⟩ :=
      (laid.attested key n node).sites
        (laid.defined node item listed range (laid.defining path visited _ member))
        (laid.defined node item' listed' range' (laid.defining path visited _ member'))
    obtain ⟨file, m, shown, rfl⟩ := laid.marked node document visited number.symm recorded holds
    obtain ⟨file', m', shown', rfl⟩ := laid.marked node document visited number' recorded' holds'
    refine one (spread.marks shown shown' ?_ (file.trans file'.symm) ?_)
    · rw [file, ← laid.traversal]
      exact visited
    · rw [← holds.1, ← holds'.1]
      exact same

end State.Laid

end SymbolAtlas.Session
