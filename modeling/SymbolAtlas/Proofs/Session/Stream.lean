/-
# SymbolAtlas.Proofs.Session.Stream -- what a completed run emits

`view` reads back what the sink of a session took.  As long as nothing is refused, the
state and the stream belong together (`State.Traced`): the stream is ordered, every node
and every document is in it, and every occurrence that a node has written down is a
range of the right role in the right document.

A step keeps the two together (`Step.traced`), whatever order nodes are asked for in and
whatever cycles the symbols have; so a completed run leaves a well-formed stream
(`run_wellFormed`).
-/
import SymbolAtlas.Proofs.Graph.WellFormed
import SymbolAtlas.Proofs.Session.Course
import SymbolAtlas.Sketch

set_option autoImplicit false

namespace SymbolAtlas

open SymbolAtlas.Graph (Id Element Holds WellFormed)

namespace Graph

/-- The stream has a range with this ID, role and document. -/
def Located (stream : List Element) (role : Role) (document id : Id) : Prop :=
  ∃ r, ⟨id, .range r⟩ ∈ stream ∧ r.role = role ∧ r.document = document

theorem Located.holds {stream : List Element} {role : Role} {document id : Id}
    (h : Located stream role document id) : Holds stream .range id := by
  obtain ⟨r, member, -⟩ := h
  exact ⟨_, member, rfl, rfl⟩

end Graph

namespace Session

variable {μ ω : Type} {c : Context μ ω} {view : ω → List Element}

/-- What was taken is seen. -/
theorem view_emitted (records : c.sink.Records view) {s : State μ ω} {body : Graph.Body}
    (ok : (s.emitted c body).failure = none) :
    view (s.emitted c body).output = view s.output ++ [⟨s.lastId + 1, body⟩] := by
  have before := failure_none_of_emitted ok
  simp only [State.emitted, deliver, before] at ok ⊢
  cases taken : c.sink ⟨s.lastId + 1, body⟩ s.output with
  | ok output => exact records _ _ _ taken
  | error reason => simp [taken] at ok

theorem view_emittedAll (records : c.sink.Records view) {s : State μ ω}
    {bodies : List Graph.Body} (ok : (s.emittedAll c bodies).failure = none) :
    ∃ added, view (s.emittedAll c bodies).output = view s.output ++ added ∧
      added.map (·.body) = bodies := by
  induction bodies generalizing s with
  | nil => exact ⟨[], by simp [State.emittedAll], rfl⟩
  | cons body bodies ih =>
      obtain ⟨added, seen, same⟩ := ih (s := s.emitted c body) ok
      refine ⟨⟨s.lastId + 1, body⟩ :: added, ?_, by simp [same]⟩
      rw [view_emitted records (failure_none_of_emittedAll ok), List.append_assoc] at seen
      exact seen

/-! ## Nodes in the stream -/

/-- The documents that exist keep their numbers. -/
def SameIds (documents documents' : Table String DocumentNode) : Prop :=
  ∀ path d, documents.get? path = some d → ∃ d', documents'.get? path = some d' ∧ d'.id = d.id

/-- What a symbol has written down about one document is in the stream. -/
structure Occurrences.Filed (stream : List Element) (documents : Table String DocumentNode)
    (path : String) (o : Occurrences) : Prop where
  document : ∃ d, documents.get? path = some d ∧ d.id = o.document
  definitions : ∀ id ∈ o.definitions, Graph.Located stream .definition o.document id
  references : ∀ id ∈ o.references, Graph.Located stream .reference o.document id

/-- A node and all its occurrences are in the stream. -/
structure SymbolNode.Filed (stream : List Element) (documents : Table String DocumentNode)
    (n : SymbolNode) : Prop where
  resultSet : Holds stream .resultSet n.resultSet
  occurrences : n.occurrences.All fun path o => o.Filed stream documents path

/-- A document and all its ranges are in the stream. -/
structure DocumentNode.Filed (stream : List Element) (d : DocumentNode) : Prop where
  id : Holds stream .document d.id
  ranges : ∀ id ∈ d.ranges, Holds stream .range id

theorem SymbolNode.Filed.mono {stream stream' : List Element}
    {documents documents' : Table String DocumentNode} {n : SymbolNode}
    (h : n.Filed stream documents) (more : stream ⊆ stream') (same : SameIds documents documents') :
    n.Filed stream' documents' := by
  refine ⟨?_, fun path o here => ?_⟩
  · obtain ⟨e, member, rest⟩ := h.resultSet
    exact ⟨e, more member, rest⟩
  · obtain ⟨⟨d, document, number⟩, definitions, references⟩ := h.occurrences path o here
    obtain ⟨d', document', number'⟩ := same path d document
    refine ⟨⟨d', document', number'.trans number⟩, fun id member => ?_, fun id member => ?_⟩
    · obtain ⟨r, inside, rest⟩ := definitions id member
      exact ⟨r, more inside, rest⟩
    · obtain ⟨r, inside, rest⟩ := references id member
      exact ⟨r, more inside, rest⟩

theorem DocumentNode.Filed.mono {stream stream' : List Element} {d : DocumentNode}
    (h : d.Filed stream) (more : stream ⊆ stream') : d.Filed stream' := by
  refine ⟨?_, fun id member => ?_⟩
  · obtain ⟨e, inside, rest⟩ := h.id
    exact ⟨e, more inside, rest⟩
  · obtain ⟨e, inside, rest⟩ := h.ranges id member
    exact ⟨e, more inside, rest⟩

/-- A change of the occurrences in one document. -/
theorem SymbolNode.Filed.addOccurrence {stream : List Element}
    {documents : Table String DocumentNode} {n : SymbolNode} (h : n.Filed stream documents)
    {path : String} {d : DocumentNode} (document : documents.get? path = some d)
    {f : Occurrences → Occurrences}
    (kept : ∀ o, o.document = d.id → o.Filed stream documents path →
      (f o).Filed stream documents path) :
    (n.addOccurrence path d.id f).Filed stream documents := by
  refine ⟨h.resultSet, h.occurrences.insert (kept _ ?_ ?_)⟩
  · cases present : n.occurrences.get? path with
    | none => rfl
    | some o =>
        obtain ⟨d', document', number⟩ := (h.occurrences path o present).document
        obtain rfl := Option.some.inj (document.symm.trans document')
        exact number.symm
  · cases present : n.occurrences.get? path with
    | none => exact ⟨⟨d, document, rfl⟩, by simp, by simp⟩
    | some o => exact h.occurrences path o present

theorem Occurrences.Filed.addDefinition {stream : List Element}
    {documents : Table String DocumentNode} {path : String} {o : Occurrences}
    (h : o.Filed stream documents path) {document id : Id} (same : o.document = document)
    (new : Graph.Located stream .definition document id) :
    Occurrences.Filed stream documents path { o with definitions := o.definitions.push id } := by
  refine ⟨h.document, fun id' member => ?_, h.references⟩
  rcases Array.mem_push.1 member with old | rfl
  · exact h.definitions id' old
  · exact same ▸ new

theorem Occurrences.Filed.addReference {stream : List Element}
    {documents : Table String DocumentNode} {path : String} {o : Occurrences}
    (h : o.Filed stream documents path) {document id : Id} (same : o.document = document)
    (new : Graph.Located stream .reference document id) :
    Occurrences.Filed stream documents path { o with references := o.references.push id } := by
  refine ⟨h.document, h.definitions, fun id' member => ?_⟩
  rcases Array.mem_push.1 member with old | rfl
  · exact h.references id' old
  · exact same ▸ new

/-! ## The state and the stream -/

/-- The state and the stream belong together. -/
structure State.Traced (view : ω → List Element) (s : State μ ω) : Prop where
  count : (view s.output).length = s.lastId
  wellFormed : WellFormed (view s.output)
  project : s.projectId = 2
  symbols : s.symbols.All fun _ n => n.Filed (view s.output) s.documents
  documents : s.documents.All fun _ d => d.Filed (view s.output)

theorem SameIds.refl (documents : Table String DocumentNode) : SameIds documents documents :=
  fun _ d document => ⟨d, document, rfl⟩

theorem sameIds_modify (documents : Table String DocumentNode) (path : String)
    {f : DocumentNode → DocumentNode} (same : ∀ d, (f d).id = d.id) :
    SameIds documents (documents.modify path f) := by
  intro path' d document
  by_cases own : path = path' <;> simp [Table.get?_modify, own, document, same]

theorem sameIds_insert {documents : Table String DocumentNode} {path : String}
    (fresh : documents.get? path = none) (d : DocumentNode) :
    SameIds documents (documents.insert path d) := by
  intro path' d' document
  have different : path ≠ path' := by
    rintro rfl
    simp [fresh] at document
  exact ⟨d', by simp [Table.get?_insert, different, document], rfl⟩

/-- One more element, linked in the stream. -/
theorem State.Traced.emitted {s : State μ ω} (h : s.Traced view) (records : c.sink.Records view)
    {body : Graph.Body} (ok : (s.emitted c body).failure = none)
    (linked : body.LinkedIn (view s.output)) : (s.emitted c body).Traced view := by
  have seen := view_emitted records ok
  have more : view s.output ⊆ view (s.emitted c body).output := by simp [seen]
  refine ⟨?_, ?_, h.project, h.symbols.imp fun _ _ _ filed => filed.mono more (.refl _),
    h.documents.imp fun _ _ _ filed => filed.mono more⟩
  · rw [seen, List.length_append, h.count]
    rfl
  · rw [seen]
    exact h.wellFormed.snoc (by simp [h.count]) linked

theorem State.Traced.emittedAll {s : State μ ω} (h : s.Traced view)
    (records : c.sink.Records view) {bodies : List Graph.Body}
    (ok : (s.emittedAll c bodies).failure = none)
    (linked : ∀ body ∈ bodies, ∀ stream, view s.output ⊆ stream → body.LinkedIn stream) :
    (s.emittedAll c bodies).Traced view := by
  induction bodies generalizing s with
  | nil => exact h
  | cons body bodies ih =>
      have first : (s.emitted c body).failure = none := failure_none_of_emittedAll ok
      refine ih (h.emitted records first (linked body (by simp) _ (List.Subset.refl _))) ok ?_
      intro other member stream more
      refine linked other (by simp [member]) stream fun e inside => more ?_
      rw [view_emitted records first]
      exact List.mem_append_left _ inside

/-- A change of one symbol. -/
theorem State.Traced.modifySymbol {s : State μ ω} (h : s.Traced view) (key : String)
    {f : SymbolNode → SymbolNode}
    (kept : ∀ n, n.Filed (view s.output) s.documents → (f n).Filed (view s.output) s.documents) :
    State.Traced view { s with symbols := s.symbols.modify key f } :=
  ⟨h.count, h.wellFormed, h.project, h.symbols.modify fun n _ filed => kept n filed, h.documents⟩

theorem State.Traced.insertSymbol {s : State μ ω} (h : s.Traced view) (key : String)
    {n : SymbolNode} (filed : n.Filed (view s.output) s.documents) :
    State.Traced view { s with symbols := s.symbols.insert key n } :=
  ⟨h.count, h.wellFormed, h.project, h.symbols.insert filed, h.documents⟩

/-- A change of documents that keeps their numbers. -/
theorem State.Traced.withDocuments {s : State μ ω} (h : s.Traced view)
    {documents : Table String DocumentNode} (same : SameIds s.documents documents)
    (filed : documents.All fun _ d => d.Filed (view s.output)) :
    State.Traced view { s with documents } :=
  ⟨h.count, h.wellFormed, h.project,
    h.symbols.imp fun _ _ _ filed => filed.mono (List.Subset.refl _) same, filed⟩

theorem State.Traced.modifyDocument {s : State μ ω} (h : s.Traced view) (path : String)
    {f : DocumentNode → DocumentNode} (same : ∀ d, (f d).id = d.id)
    (kept : ∀ d, d.Filed (view s.output) → (f d).Filed (view s.output)) :
    State.Traced view { s with documents := s.documents.modify path f } :=
  h.withDocuments (sameIds_modify _ _ same) (h.documents.modify fun d _ filed => kept d filed)

theorem traced_began {s : State μ ω} (h : s.Traced view) (records : c.sink.Records view)
    {path : String} (fresh : s.documents.get? path = none)
    (ok : (s.began c path).failure = none) : (s.began c path).Traced view := by
  have taken : (s.emitted c (.document (documentBody c path))).failure = none := ok
  have emitted := h.emitted records taken trivial
  have filed : DocumentNode.Filed (view (s.emitted c (.document (documentBody c path))).output)
      (s.newDocument c path) := by
    refine ⟨?_, by simp [State.newDocument]⟩
    rw [view_emitted records taken]
    exact Graph.holds_snoc rfl
  have changed := emitted.withDocuments (sameIds_insert fresh _) (emitted.documents.insert filed)
  exact ⟨changed.count, changed.wellFormed, changed.project, changed.symbols, changed.documents⟩

/-- The range of an occurrence is in the stream and in its document. -/
theorem traced_range {s : State μ ω} (h : s.Traced view) (records : c.sink.Records view)
    {key path : String} {n : SymbolNode} {d : DocumentNode} {r : Graph.Range}
    (node : s.symbols.get? key = some n) (document : s.documents.get? path = some d)
    (inDocument : r.document = d.id) (inNode : r.resultSet = n.resultSet)
    (ok : (s.emitted c (.range r)).failure = none) :
    State.Traced view { s.emitted c (.range r) with
        documents := s.documents.modify path fun d =>
          { d with ranges := d.ranges.push (s.lastId + 1) } } ∧
      Graph.Located (view (s.emitted c (.range r)).output) r.role d.id (s.lastId + 1) := by
  have linked : (Graph.Body.range r).LinkedIn (view s.output) :=
    ⟨inDocument ▸ (h.documents path d document).id, inNode ▸ (h.symbols key n node).resultSet⟩
  have emitted := h.emitted records ok linked
  have located : Graph.Located (view (s.emitted c (.range r)).output) r.role d.id
      (s.lastId + 1) := by
    rw [view_emitted records ok]
    exact ⟨r, by simp, rfl, inDocument⟩
  refine ⟨emitted.modifyDocument path (fun _ => rfl) fun d filed =>
    ⟨filed.id, fun id member => ?_⟩, located⟩
  rcases Array.mem_push.1 member with old | rfl
  · exact filed.ranges id old
  · exact located.holds

/-- The number of a document is the same after a range was added to it. -/
theorem sameIds_push {s : State μ ω} {path : String} {d : DocumentNode} {id : Id}
    (document : s.documents.get? path = some d) :
    (s.documents.modify path fun d => { d with ranges := d.ranges.push id }).get? path =
      some { d with ranges := d.ranges.push id } := by
  simp [document]

theorem traced_defined {s : State μ ω} (h : s.Traced view) (records : c.sink.Records view)
    {key path : String} {n : SymbolNode} {d : DocumentNode} {declaration name : Node}
    (node : s.symbols.get? key = some n) (document : s.documents.get? path = some d)
    (ok : (s.defined c key path n d declaration name).failure = none) :
    (s.defined c key path n d declaration name).Traced view := by
  obtain ⟨ranged, located⟩ := traced_range h records node document rfl rfl ok
  have changed := ranged.modifySymbol key (f := fun n =>
    { n.addOccurrence path d.id (fun o =>
        { o with definitions := o.definitions.push (s.lastId + 1) }) with
      recorded := Site.ofNode name :: n.recorded }) fun n filed => by
    have added := filed.addOccurrence (sameIds_push document) fun o same filed =>
      filed.addDefinition same located
    exact ⟨added.resultSet, added.occurrences⟩
  exact ⟨changed.count, changed.wellFormed, changed.project, changed.symbols, changed.documents⟩

theorem State.Traced.forwarded {s : State μ ω} (h : s.Traced view) {path : String}
    {d : DocumentNode} (document : s.documents.get? path = some d) {id : Id}
    (located : Graph.Located (view s.output) .reference d.id id) (keys : List String) :
    (keys.foldl (State.forwarded path d.id id) s).Traced view := by
  induction keys generalizing s with
  | nil => exact h
  | cons key keys ih =>
      rw [List.foldl_cons]
      unfold State.forwarded
      split
      · exact ih h document located
      · split
        · exact ih h document located
        · exact ih (h.modifySymbol key fun n filed => filed.addOccurrence document
            fun o same filed => filed.addReference same located) document located

theorem traced_referred {s : State μ ω} (h : s.Traced view) (records : c.sink.Records view)
    {key path : String} {n : SymbolNode} {d : DocumentNode} {name : Node}
    (node : s.symbols.get? key = some n) (document : s.documents.get? path = some d)
    (ok : (s.referred c key path n d name).failure = none) :
    (s.referred c key path n d name).Traced view ∧
      Graph.Located (view (s.referred c key path n d name).output) .reference d.id
        (s.lastId + 1) := by
  obtain ⟨ranged, located⟩ := traced_range h records node document rfl rfl ok
  have changed := ranged.modifySymbol key (f := fun n =>
      n.addReferenceId path d.id (s.lastId + 1)) fun n filed =>
    filed.addOccurrence (sameIds_push document) fun o same filed =>
      filed.addReference same located
  exact ⟨⟨changed.count, changed.wellFormed, changed.project, changed.symbols, changed.documents⟩,
    located⟩

theorem traced_attached {s : State μ ω} (h : s.Traced view) (records : c.sink.Records view)
    {key : String} {n : SymbolNode} {m : Moniker} (node : s.symbols.get? key = some n)
    (ok : (s.attached c key n m).failure = none) : (s.attached c key n m).Traced view := by
  have first : (s.emitted c (.moniker m)).failure = none := failure_none_of_emitted ok
  have moniker := h.emitted records first trivial
  have edge := moniker.emitted records ok
    ⟨(moniker.symbols key n node).resultSet, view_emitted records first ▸ Graph.holds_snoc rfl⟩
  have changed := edge.modifySymbol key (f := fun n => { n with monikers := n.monikers.push m })
    fun n filed => ⟨filed.resultSet, filed.occurrences⟩
  exact ⟨changed.count, changed.wellFormed, changed.project, changed.symbols, changed.documents⟩

theorem traced_hovered {s : State μ ω} (h : s.Traced view) (records : c.sink.Records view)
    {key : String} {n : SymbolNode} {contents : String} (node : s.symbols.get? key = some n)
    (ok : ((s.emitted c (.hover contents)).emitted c
      (.hoverEdge n.resultSet (s.lastId + 1))).failure = none) :
    ((s.emitted c (.hover contents)).emitted c
      (.hoverEdge n.resultSet (s.lastId + 1))).Traced view := by
  have first : (s.emitted c (.hover contents)).failure = none := failure_none_of_emitted ok
  have hover := h.emitted records first trivial
  exact hover.emitted records ok
    ⟨(hover.symbols key n node).resultSet, view_emitted records first ▸ Graph.holds_snoc rfl⟩

theorem Detail.traced (records : c.sink.Records view) {s s' : State μ ω} (step : Detail c s s')
    (h : s.Traced view) (ok : s'.failure = none) : s'.Traced view := by
  cases step with
  | asked | counted | awaited =>
      exact ⟨h.count, h.wellFormed, h.project, h.symbols, h.documents⟩
  | began fresh outside => exact traced_began h records fresh ok
  | sited =>
      exact h.modifySymbol _ fun n filed => ⟨filed.resultSet, filed.occurrences⟩
  | defined node open_ document => exact traced_defined h records node document ok
  | attached node open_ new => exact traced_attached h records node ok
  | hovered contents node => exact traced_hovered h records node ok
  | @joined key n m target node alias_ targetNode =>
      exact h.emitted records ok
        ⟨(h.symbols _ _ node).resultSet, (h.symbols _ _ targetNode).resultSet⟩
  | confined node confined document writable =>
      exact h.modifyDocument _ (fun _ => rfl) fun d filed => ⟨filed.id, filed.ranges⟩

theorem Growth.traced (records : c.sink.Records view) {s s' : State μ ω} (step : Growth c s s')
    (h : s.Traced view) (ok : s'.failure = none) : s'.Traced view := by
  cases step with
  | @enrolled sym use variant declarations name namer _ _ memory fresh =>
      have taken : (s.emitted c (.resultSet {
        symbol := name.render, name := sym.name, variant := variant.name,
        isLocal := name.isLocal })).failure = none := ok
      have emitted := h.emitted records taken trivial
      have node := emitted.insertSymbol sym.key
        (n := nodeOfSymbol sym variant declarations name (s.lastId + 1))
        ⟨view_emitted records taken ▸ Graph.holds_snoc rfl, by simp [nodeOfSymbol]⟩
      exact ⟨node.count, node.wellFormed, node.project, node.symbols, node.documents⟩
  | based | composed =>
      exact h.modifySymbol _ fun n filed => ⟨filed.resultSet, filed.occurrences⟩

theorem Usage.traced (records : c.sink.Records view) {s s' : State μ ω} (step : Usage c s s')
    (h : s.Traced view) (ok : s'.failure = none) : s'.Traced view := by
  cases step with
  | marked node open_ document => exact traced_defined h records node document ok
  | @referred key path n d name node open_ document writable =>
      obtain ⟨symbols, same⟩ := State.foldl_forwarded_eq path d.id (s.lastId + 1)
        (n.forwards key) (s.referred c key path n d name)
      have first : (s.referred c key path n d name).failure = none := by
        rw [same] at ok
        exact ok
      obtain ⟨traced, located⟩ := traced_referred h records node document first
      exact traced.forwarded (sameIds_push document) located _

/-- An item edge of a node lists the definitions or the references in one document. -/
theorem SymbolNode.mem_items {n : SymbolNode} {i : Graph.Item} (member : i ∈ n.items) :
    i.outV = n.resultSet ∧ ∃ path o, n.occurrences.get? path = some o ∧
      i.document = o.document ∧
      (i.property = .definitions ∧ i.inVs = o.definitions.toList ∨
        i.property = .references ∧ i.inVs = o.references.toList) := by
  obtain ⟨o, value, member⟩ := List.mem_flatMap.1 member
  obtain ⟨path, here⟩ := Table.mem_values_iff.1 value
  rcases List.mem_append.1 member with first | second
  · split at first
    · simp at first
    · obtain rfl := List.mem_singleton.1 first
      exact ⟨rfl, path, o, here, rfl, .inl ⟨rfl, rfl⟩⟩
  · split at second
    · simp at second
    · obtain rfl := List.mem_singleton.1 second
      exact ⟨rfl, path, o, here, rfl, .inr ⟨rfl, rfl⟩⟩

/-- Every item edge of a node is linked in the stream that holds its occurrences. -/
theorem SymbolNode.Filed.linked_items {stream : List Element}
    {documents : Table String DocumentNode} {n : SymbolNode} (h : n.Filed stream documents)
    (filed : documents.All fun _ d => d.Filed stream) {item : Graph.Item}
    (member : item ∈ n.items) : (Graph.Body.item item).LinkedIn stream := by
  obtain ⟨outV, path, o, here, home, listed⟩ := n.mem_items member
  obtain ⟨⟨d, document, number⟩, definitions, references⟩ := h.occurrences path o here
  refine ⟨outV ▸ h.resultSet, fun id inside => ?_,
    home ▸ number ▸ (filed path d document).id⟩
  rcases listed with ⟨-, inVs⟩ | ⟨-, inVs⟩
  · exact (definitions id (by simpa [inVs] using inside)).holds
  · exact (references id (by simpa [inVs] using inside)).holds

theorem Ending.traced (records : c.sink.Records view) {s s' : State μ ω} (step : Ending c s s')
    (h : s.Traced view) (ok : s'.failure = none) : s'.Traced view := by
  cases step with
  | @symbol key n node open_ =>
      have taken : (s.emittedAll c (n.items.map .item)).failure = none := ok
      have emitted := h.emittedAll records taken ?_
      · have changed := emitted.modifySymbol key (f := fun n => { n with ended := true })
          fun n filed => ⟨filed.resultSet, filed.occurrences⟩
        rw [symbols_emittedAll] at changed
        exact changed
      · intro body member stream more
        obtain ⟨item, inside, rfl⟩ := List.mem_map.1 member
        exact ((h.symbols key n node).mono more (.refl _)).linked_items
          (h.documents.imp fun _ _ _ filed => filed.mono more) inside
  | @document path d document writable frozen =>
      have emitted : State.Traced view
          (if d.ranges.isEmpty then s else s.emitted c (.contains d.id d.ranges.toList)) := by
        unfold State.documentEnded at ok
        split at ok
        · rw [if_pos ‹_›]
          exact h
        · rw [if_neg ‹_›]
          have filed := h.documents path d document
          exact h.emitted records ok (.inr ⟨filed.id, fun id member =>
            filed.ranges id (by simpa using member)⟩)
      have same : (if d.ranges.isEmpty then s
          else s.emitted c (.contains d.id d.ranges.toList)).documents = s.documents := by
        split <;> rfl
      rw [State.documentEnded, ← same]
      exact emitted.modifyDocument path (fun _ => rfl) fun d filed => ⟨filed.id, filed.ranges⟩

/-- **A step keeps the state and the stream together.** -/
theorem Step.traced (records : c.sink.Records view) {s s' : State μ ω} (step : Step c s s')
    (h : s.Traced view) (ok : s'.failure = none) : s'.Traced view := by
  cases step with
  | detail step => exact step.traced records h ok
  | growth step => exact step.traced records h ok
  | usage step => exact step.traced records h ok
  | ending step => exact step.traced records h ok
  | opened fresh => exact traced_began h records fresh ok
  | turned | passed => exact ⟨h.count, h.wellFormed, h.project, h.symbols, h.documents⟩

theorem Steps.traced (records : c.sink.Records view) {s s' : State μ ω} (steps : Steps c s s')
    (h : s.Traced view) (ok : s'.failure = none) : s'.Traced view := by
  induction steps with
  | refl => exact h
  | tail _ last ih => exact last.traced records (ih (last.failure_none ok)) ok

/-! ## Runs -/

/-- A run begins with its metadata and its project. -/
theorem view_opened (records : c.sink.Records view) {memory : μ} {output : ω}
    (empty : view output = [])
    (ok : ((State.start c memory output).opened c).failure = none) :
    view ((State.start c memory output).opened c).output =
      [⟨1, .metadata (metadataBody c)⟩, ⟨2, .project (projectBody c)⟩] := by
  have first : (State.emitted c { State.start c memory output with ran := true }
      (.metadata (metadataBody c))).failure = none := failure_none_of_emitted ok
  refine (view_emitted records (by exact ok)).trans ?_
  rw [view_emitted records first]
  simp [State.start, State.emitted, empty]

theorem traced_opened (records : c.sink.Records view) {memory : μ} {output : ω}
    (empty : view output = [])
    (ok : ((State.start c memory output).opened c).failure = none) :
    ((State.start c memory output).opened c).Traced view := by
  have seen := view_opened records empty ok
  refine ⟨by rw [seen]; rfl, ?_, rfl, Table.all_empty _, Table.all_empty _⟩
  rw [seen]
  have one := Graph.ordered_nil.snoc (e := ⟨1, .metadata (metadataBody c)⟩) rfl trivial
  exact ⟨one.snoc rfl trivial, _, _, [], rfl⟩

theorem traced_concluded {s : State μ ω} (h : s.Traced view) (records : c.sink.Records view)
    (ok : (s.concluded c).failure = none) : (s.concluded c).Traced view := by
  unfold State.concluded at ok ⊢
  split
  · exact h
  · rw [if_neg ‹_›] at ok
    refine h.emitted records ok (.inl ⟨h.project ▸ h.wellFormed.project, fun id member => ?_⟩)
    obtain ⟨d, value, rfl⟩ := List.mem_map.1 member
    obtain ⟨path, document⟩ := Table.mem_values_iff.1 value
    exact (h.documents path d document).id

/-- The state and the stream belong together when a run is completed. -/
theorem traced_run (records : c.sink.Records view) {canceled : Cancellation Nat} {memory : μ}
    {output : ω} (empty : view output = []) {stats : Stats} {s' : State μ ω}
    (completed : Yields (run c canceled) (.start c memory output) (stats, none) s') :
    s'.Traced view := by
  obtain ⟨t, u, course, endings, -, -, rfl, ok⟩ := course_run completed
  have steps : Steps c _ u := course.steps.trans endings.steps
  have ok' := failure_none_of_concluded ok
  have begun := traced_opened records empty (steps.failure_none ok')
  exact traced_concluded (steps.traced records begun ok') records ok

/-- The same session with a record of the elements that its sink took. -/
def Context.recorded (c : Context μ ω) : Context μ (ω × Array Element) where
  oracle := c.oracle
  sink := c.sink.both Graph.Sink.collect
  options := c.options
  locate := c.locate

/-- What a recorded session has emitted. -/
def State.stream (s : State μ (ω × Array Element)) : List Element := s.output.2.toList

theorem records_recorded (c : Context μ ω) : c.recorded.sink.Records (·.2.toList) :=
  Graph.records_both c.sink

/-- **A completed run leaves a well-formed stream.**  The elements are numbered from 1, the
first is the metadata and the second the project, and every ID that an element mentions
belongs to an earlier vertex of the right sort. -/
theorem run_wellFormed (c : Context μ ω) {canceled : Cancellation Nat} {memory : μ} {output : ω}
    {stats : Stats} {s' : State μ (ω × Array Element)}
    (completed : Yields (run c.recorded canceled) (.start c.recorded memory (output, #[]))
      (stats, none) s') : WellFormed s'.stream :=
  (traced_run (records_recorded c) rfl completed).wellFormed

/-! ### A run through cycles -/

/-- Two aliases of each other, and two methods that build on each other. -/
def cyclic : Sketch :=
  let (file, s) := Sketch.addFile {} "a.go"
  let (first, s) := s.addSymbol "a" "a" {}
  let (second, s) := s.addSymbol "b" "b" {}
  let s := (s.setAlias first (some second)).setAlias second (some first)
  let (upper, s) := s.addSymbol "T" "T" {}
  let (lower, s) := s.addSymbol "U" "U" {}
  let (method, s) := s.addSymbol "T.f" "f" {}
  let (other, s) := s.addSymbol "U.f" "f" {}
  let s := (s.setContainer method upper).setContainer other lower
  let s := (s.setBases upper "f" [other]).setBases lower "f" [method]
  let (_, s) := s.define file .variable "a" first
  let (_, s) := s.define file .method "f" method
  let (_, s) := s.addUse file first
  let (_, s) := s.addUse file method
  s

/-- A session over the cycles that nobody listens to. -/
def cyclicContext : Context Sketch.AliasLog Unit where
  oracle := cyclic.oracle
  sink _ _ := .ok ()
  options := {}
  locate _ := some { path := "p" }

theorem completed_cyclic :
    (outcome (run cyclicContext.recorded false)
      (.start cyclicContext.recorded [] ((), #[]))).1.toOption =
      some ({ documents := 1, symbols := 4, definitions := 2, references := 2 }, none) := by
  decide +kernel

theorem run_wellFormed_cyclic :
    ∃ stats s', Yields (run cyclicContext.recorded false)
      (.start cyclicContext.recorded [] ((), #[])) (stats, none) s' ∧ WellFormed s'.stream := by
  have completed := yields_of_answer completed_cyclic
  exact ⟨_, _, completed, run_wellFormed cyclicContext completed⟩

end Session
end SymbolAtlas
