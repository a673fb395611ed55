/-
# SymbolAtlas.Proofs.Session.Vertices -- what the vertices of a run say

The vertex of a document says where its file stands and what is known of it, and the vertex of a
symbol how the symbol is addressed.  Both are emitted when their nodes are made, and no step
changes what they say (`State.Described`).  A document is that of a file of the run, or a
declaration of a symbol stands in it (`State.Houses`).
-/
import SymbolAtlas.Proofs.Session.Charted

set_option autoImplicit false

namespace SymbolAtlas.Session

open SymbolAtlas.Graph (Id Element)

variable {μ ω : Type} {c : Context μ ω} {view : ω → List Element}

/-- What the vertex of a symbol says. -/
def SymbolNode.vertex (n : SymbolNode) : Graph.ResultSet :=
  { symbol := n.identifier, name := n.symbol.name
    variant := (n.variant.map Variant.name).getD "", isLocal := n.isLocal }

/-- A path is that of a file of the run, or of one in which a declaration of a symbol stands. -/
def State.Houses (c : Context μ ω) (s : State μ ω) (path : String) : Prop :=
  path ∈ s.traversal ∨ ∃ key n id m, s.symbols.get? key = some n ∧ id ∈ n.declarations ∧
    (c.oracle.node id m).file = path

theorem State.Houses.later {s s' : State μ ω} {path : String} (h : s.Houses c path)
    (steps : Steps c s s') : s'.Houses c path := by
  rcases h with visited | ⟨key, n, id, m, node, chosen, file⟩
  · exact .inl (steps.settled.1.symm ▸ visited)
  · obtain ⟨n', node', same⟩ := steps.profile node
    exact .inr ⟨key, n', id, m, node', (declarations_of_profile same).symm ▸ chosen, file⟩

/-- Every document and every symbol has its vertex. -/
structure State.Described (c : Context μ ω) (view : ω → List Element) (s : State μ ω) : Prop where
  documents : s.documents.All fun path d =>
    ⟨d.id, .document (documentBody c path)⟩ ∈ view s.output ∧ s.Houses c path
  symbols : s.symbols.All fun _ n => ⟨n.resultSet, .resultSet n.vertex⟩ ∈ view s.output

/-- A document begins with its vertex. -/
theorem described_began (records : c.sink.Records view) {s : State μ ω} {path : String}
    (ok : (s.began c path).failure = none)
    (documents : s.documents.All fun other d =>
      ⟨d.id, .document (documentBody c other)⟩ ∈ view (s.began c path).output ∧
        (s.began c path).Houses c other) (home : (s.began c path).Houses c path) :
    (s.began c path).documents.All fun other d =>
      ⟨d.id, .document (documentBody c other)⟩ ∈ view (s.began c path).output ∧
        (s.began c path).Houses c other := by
  have seen : view (s.began c path).output = _ := view_emitted records ok
  refine documents.insert ⟨?_, home⟩
  rw [seen]
  exact List.mem_append_right _ List.mem_cons_self

theorem Step.described (records : c.sink.Records view) {s s' : State μ ω} (step : Step c s s')
    (filed : s.Filed view) (h : s.Described c view) (ok : s'.failure = none) :
    s'.Described c view := by
  obtain ⟨-, -, more, stream⟩ := Steps.sorted records (.single step) filed.traced filed.sorted ok
  have inside : view s.output ⊆ view s'.output := stream ▸ List.subset_append_left _ _
  have documents : s.documents.All fun path d =>
      ⟨d.id, .document (documentBody c path)⟩ ∈ view s'.output ∧ s'.Houses c path :=
    h.documents.imp fun _ _ _ ⟨member, home⟩ => ⟨inside member, home.later (.single step)⟩
  have symbols : s.symbols.All fun _ n => ⟨n.resultSet, .resultSet n.vertex⟩ ∈ view s'.output :=
    h.symbols.imp fun _ _ _ member => inside member
  cases step with
  | detail step =>
      cases step with
      | asked | counted | joined | hovered | awaited => exact ⟨documents, symbols⟩
      | began fresh outside needed =>
          obtain ⟨key, n, id, node, chosen, file⟩ := needed
          exact ⟨described_began records ok documents
            (.inr ⟨key, n, id, s.memory, node, chosen, file⟩), symbols⟩
      | sited | attached => exact ⟨documents, symbols.modify fun _ _ member => member⟩
      | defined =>
          exact ⟨documents.modify fun _ _ member => member,
            symbols.modify fun _ _ member => member⟩
      | confined => exact ⟨documents.modify fun _ _ member => member, symbols⟩
  | growth step =>
      cases step with
      | @enrolled sym use variant declarations name namer m₁ m₂ m₃ fresh classified declared =>
          have seen : view (s.enrolled c sym variant declarations name namer m₃).output = _ :=
            view_emitted records ok
          refine ⟨documents, symbols.insert ?_⟩
          rw [seen]
          exact List.mem_append_right _ List.mem_cons_self
      | based | composed => exact ⟨documents, symbols.modify fun _ _ member => member⟩
  | usage step =>
      cases step with
      | marked =>
          exact ⟨documents.modify fun _ _ member => member,
            symbols.modify fun _ _ member => member⟩
      | @referred key path n d name node open_ document writable =>
          have nodes := all_foldl_forwarded path d.id (s.lastId + 1) (n.forwards key)
            (s := s.referred c key path n d name)
            (symbols.modify fun _ _ member => member) fun _ _ member => member
          obtain ⟨_, shape⟩ := State.foldl_forwarded_eq path d.id (s.lastId + 1)
            (n.forwards key) (s.referred c key path n d name)
          refine ⟨?_, nodes⟩
          rw [shape]
          rw [shape] at documents
          exact documents.modify fun _ _ member => member
  | ending step =>
      cases step with
      | @symbol key n node open_ =>
          obtain ⟨_, _, _, shape⟩ := s.emittedAll_eq (c := c) (n.items.map .item)
          refine ⟨?_, symbols.modify fun _ _ member => member⟩
          rw [State.symbolEnded, shape] at documents ⊢
          exact documents
      | @document path d document writable frozen =>
          obtain ⟨_, _, _, shape⟩ := s.documentEnded_eq (c := c) path d
          rw [shape] at documents symbols ⊢
          exact ⟨documents.modify fun _ _ member => member, symbols⟩
  | opened fresh visited => exact ⟨described_began records ok documents (.inl visited), symbols⟩
  | turned | passed => exact ⟨documents, symbols⟩

theorem Steps.described (records : c.sink.Records view) {s s' : State μ ω} (steps : Steps c s s')
    (filed : s.Filed view) (h : s.Described c view) (ok : s'.failure = none) :
    s'.Described c view := by
  induction steps with
  | refl => exact h
  | tail before last ih =>
      have ok' := last.failure_none ok
      obtain ⟨filed', -, -⟩ := Steps.filed records before filed ok'
      exact last.described records filed' (ih ok') ok

/-- **What the vertices of a completed run say.**  Every document and every symbol has its vertex,
and there is no other vertex of a document. -/
theorem described_run (records : c.sink.Records view) {canceled : Cancellation Nat} {memory : μ}
    {output : ω} {stats : Stats} {s' : State μ ω} (empty : view output = [])
    (completed : Yields (run c canceled) (.start c memory output) (stats, none) s') :
    s'.Described c view ∧ ∀ id body, ⟨id, .document body⟩ ∈ view s'.output →
      ∃ path d, s'.documents.get? path = some d ∧ d.id = id ∧ body = documentBody c path := by
  obtain ⟨t, u₁, u, course, endings₁, -, -, endings₂, -, rfl, ok, -⟩ := phases_run completed
  have endings : Endings c t u := endings₁.trans endings₂
  have steps : Steps c _ u := course.steps.trans endings.steps
  have okU := failure_none_of_concluded ok
  have begun := filed_opened records empty (steps.failure_none okU)
  obtain ⟨filed, -, -⟩ := steps.filed records begun okU
  have described := steps.described records begun
    ⟨Table.all_empty _, Table.all_empty _⟩ okU
  obtain ⟨last, stream, concluding, -⟩ :=
    view_concluded records filed.traced.project filed.sorted ok
  have inside : view u.output ⊆ view (u.concluded c).output := stream ▸ List.subset_append_left _ _
  refine ⟨⟨?_, ?_⟩, fun id body member => ?_⟩
  · rw [documents_concluded]
    refine described.documents.imp fun path _ _ ⟨member, home⟩ => ⟨inside member, ?_⟩
    unfold State.Houses
    rw [symbols_concluded, traversal_concluded]
    exact home
  · rw [symbols_concluded]
    exact described.symbols.imp fun _ _ _ member => inside member
  · rw [stream] at member
    rcases List.mem_append.1 member with member | late
    · obtain ⟨path, d, document, rfl⟩ := filed.sorted.holds_iff.1 ⟨_, member, rfl, rfl⟩
      have same := filed.ordered.unique member (described.documents path d document).1 rfl
      rw [documents_concluded]
      exact ⟨path, d, document, rfl, Graph.Body.document.inj (congrArg Element.body same)⟩
    · obtain ⟨ids, same⟩ := concluding.joins _ late
      cases same

/-- The declarations that a symbol has after a completed run were shown. -/
theorem shown_run {canceled : Cancellation Nat} {memory : μ} {output : ω} {stats : Stats}
    {s' : State μ ω} (completed : Yields (run c canceled) (.start c memory output) (stats, none) s')
    (anchored : c.oracle.Anchored memory) {key : String} {n : SymbolNode}
    (node : s'.symbols.get? key = some n) {id : NodeId} (chosen : id ∈ n.declarations) :
    c.oracle.Shown memory s'.memory id := by
  obtain ⟨t, u₁, u, course, endings₁, -, -, endings₂, -, rfl, ok, -⟩ := phases_run completed
  have endings : Endings c t u := endings₁.trans endings₂
  have okT := endings.steps.failure_none (failure_none_of_concluded ok)
  obtain ⟨rooted, -⟩ := marked_performed anchored (List.append_nil _).symm course okT
  rw [symbols_concluded] at node
  rw [memory_concluded]
  exact ((endings.rooted rooted).nodes key n node).shown id chosen

end SymbolAtlas.Session
