/-
# SymbolAtlas.Proofs.Session.Forwarding -- which members a reference reaches

A reference of a composite is forwarded to its members.  A composite knows its members by
their keys only, and a member gets its node when it is met itself.  So a reference reaches
exactly the members whose node is there, and open, at the moment that records the reference
(`run_forwards`).  A member that is met later lists none of the earlier references, and
nothing is made up for: a step writes down no number that was given before it
(`Step.noNewCite`).
-/
import SymbolAtlas.Proofs.Session.Lifecycle

set_option autoImplicit false

namespace SymbolAtlas.Session

open SymbolAtlas.Graph (Id Element)

/-! ## What a node had written down before -/

theorem SymbolNode.Cites.of_addOccurrence {n : SymbolNode} {path : String} {document x : Id}
    {f : Occurrences → Occurrences} (h : (n.addOccurrence path document f).Cites x)
    (kept : ∀ o, x ∈ (f o).references → x ∈ o.references) : n.Cites x := by
  obtain ⟨path', o, here, member⟩ := h
  simp only [SymbolNode.addOccurrence, Table.get?_insert] at here
  split at here
  · obtain rfl := Option.some.inj here
    have old := kept _ member
    cases before : n.occurrences.get? path with
    | none => simp [before] at old
    | some o =>
        rw [before, Option.getD_some] at old
        exact ⟨path, o, before, old⟩
  · exact ⟨path', o, here, member⟩

theorem SymbolNode.Cites.of_addReferenceId {n : SymbolNode} {path : String}
    {document id x : Id} (h : (n.addReferenceId path document id).Cites x) (other : x ≠ id) :
    n.Cites x :=
  SymbolNode.Cites.of_addOccurrence h fun o member => by simpa [other] using member

theorem SymbolNode.Cites.of_item {n : SymbolNode} {i : Graph.Item} {id : Id}
    (edge : i ∈ n.items) (property : i.property = .references) (listed : id ∈ i.inVs) :
    n.Cites id := by
  obtain ⟨-, path, o, here, -, ⟨definitions, -⟩ | ⟨-, inVs⟩⟩ := n.mem_items edge
  · simp [property] at definitions
  · exact ⟨path, o, here, by simpa [inVs] using listed⟩

section Steps

variable {μ ω : Type} {c : Context μ ω} {view : ω → List Element}

/-- The nodes that have written down `id` in the later state had done so in the earlier one. -/
def NoNewCite (id : Id) (s s' : State μ ω) : Prop :=
  ∀ key n', s'.symbols.get? key = some n' → n'.Cites id →
    ∃ n, s.symbols.get? key = some n ∧ n.Cites id

variable {id : Id} {s s' : State μ ω}

theorem noNewCite_of_symbols (same : s'.symbols = s.symbols) : NoNewCite id s s' :=
  fun _ n' node cites => ⟨n', same ▸ node, cites⟩

theorem NoNewCite.trans {t : State μ ω} (first : NoNewCite id s t) (second : NoNewCite id t s') :
    NoNewCite id s s' := fun key n' node cites => by
  obtain ⟨n, node, cites⟩ := second key n' node cites
  exact first key n node cites

theorem noNewCite_modify {key : String} {f : SymbolNode → SymbolNode}
    (same : s'.symbols = s.symbols.modify key f) (kept : ∀ n, (f n).Cites id → n.Cites id) :
    NoNewCite id s s' := by
  intro key' n' node cites
  rw [same, Table.get?_modify] at node
  split at node
  · obtain ⟨n, before, rfl⟩ := Option.map_eq_some_iff.1 node
    exact ⟨n, before, kept n cites⟩
  · exact ⟨n', node, cites⟩

theorem noNewCite_defined (key path : String) (n : SymbolNode) (d : DocumentNode)
    (declaration name : Node) : NoNewCite id s (s.defined c key path n d declaration name) :=
  noNewCite_modify rfl fun _ cites =>
    SymbolNode.Cites.of_addOccurrence
      (f := fun o => { o with definitions := o.definitions.push (s.lastId + 1) }) cites
      fun _ member => member

/-- Forwarding another number. -/
theorem noNewCite_forwarded {path : String} {document other : Id} (apart : id ≠ other)
    (keys : List String) (s : State μ ω) :
    NoNewCite id s (keys.foldl (State.forwarded path document other) s) := by
  induction keys generalizing s with
  | nil => exact noNewCite_of_symbols rfl
  | cons key keys ih =>
      refine NoNewCite.trans ?_ (ih _)
      intro key' n' node cites
      rw [get?_forwarded] at node
      obtain ⟨n, before, rfl⟩ := Option.map_eq_some_iff.1 node
      refine ⟨n, before, ?_⟩
      split at cites
      · exact cites.of_addReferenceId apart
      · exact cites

theorem Detail.noNewCite (step : Detail c s s') : NoNewCite id s s' := by
  cases step with
  | asked | counted | began | hovered | joined | awaited | confined =>
      exact noNewCite_of_symbols rfl
  | sited | attached => exact noNewCite_modify rfl fun _ cites => cites
  | defined => exact noNewCite_defined _ _ _ _ _ _

theorem Growth.noNewCite (step : Growth c s s') : NoNewCite id s s' := by
  cases step with
  | @enrolled sym use variant declarations name namer _ _ memory fresh =>
      intro key n' node cites
      rw [get?_enrolled] at node
      split at node
      · obtain rfl := Option.some.inj node
        obtain ⟨path, o, here, -⟩ := cites
        simp [nodeOfSymbol] at here
      · exact ⟨n', node, cites⟩
  | based | composed => exact noNewCite_modify rfl fun _ cites => cites

theorem Usage.noNewCite (usage : Usage c s s') (old : id ≤ (s.lastId : Int)) : NoNewCite id s s' := by
  cases usage with
  | marked => exact noNewCite_defined _ _ _ _ _ _
  | @referred key path n d name node open_ document writable =>
      have apart : id ≠ (s.lastId : Int) + 1 := fun same =>
        Int.not_le.2 (Int.lt_succ _) (same ▸ old)
      have recorded : NoNewCite id s (s.referred c key path n d name) :=
        noNewCite_modify rfl fun _ cites => cites.of_addReferenceId apart
      exact recorded.trans (noNewCite_forwarded apart _ _)

theorem Ending.noNewCite (step : Ending c s s') : NoNewCite id s s' := by
  cases step with
  | @symbol key n node open_ =>
      have frozen : (s.symbolEnded c key n).symbols =
          s.symbols.modify key fun n => { n with ended := true } := rfl
      exact noNewCite_modify frozen fun _ cites => cites
  | document document writable frozen =>
      refine noNewCite_of_symbols ?_
      unfold State.documentEnded
      split <;> rfl

/-- A step writes down no number that was given before. -/
theorem Step.noNewCite (step : Step c s s') (old : id ≤ (s.lastId : Int)) : NoNewCite id s s' := by
  cases step with
  | detail step => exact step.noNewCite
  | growth step => exact step.noNewCite
  | usage step => exact step.noNewCite old
  | ending step => exact step.noNewCite
  | opened | turned | passed => exact noNewCite_of_symbols rfl

/-- The number of an element was given. -/
theorem State.Traced.id_le {e : Element} (traced : s.Traced view) (inside : e ∈ view s.output) :
    e.id ≤ (s.lastId : Int) := by
  rw [← traced.count]
  exact traced.wellFormed.ordered.id_le inside

/-- Steps write down no number of an element that was in the stream before them. -/
theorem Steps.noNewCite (records : c.sink.Records view) (steps : Steps c s s')
    (traced : s.Traced view) (accounted : (s.ledger view).Accounted) (ok : s'.failure = none)
    {e : Element} (inside : e ∈ view s.output) : NoNewCite e.id s s' := by
  induction steps with
  | refl => exact noNewCite_of_symbols rfl
  | @tail t u before last ih =>
      have ok' := last.failure_none ok
      obtain ⟨⟨more, stream⟩, -⟩ :=
        (Steps.accounted records before traced accounted ok').2.continues
      have still : e ∈ (t.ledger view).stream := stream ▸ List.mem_append_left more inside
      exact (ih ok').trans (last.noNewCite ((Steps.traced records before traced ok').id_le still))

/-! ## The moment of a reference -/

/-- No node has written down a number that was not given yet. -/
theorem State.Traced.not_cites {key : String} {n : SymbolNode} (traced : s.Traced view)
    (node : s.symbols.get? key = some n) : ¬ n.Cites (s.lastId + 1) := by
  rintro ⟨path, o, here, member⟩
  obtain ⟨r, inside, -⟩ :=
    ((traced.symbols key n node).occurrences path o here).references _ member
  have given : (s.lastId : Int) + 1 ≤ s.lastId := traced.id_le inside
  omega

/-- A node that forwarding made write down a number is open. -/
theorem open_of_cites_forwarded {path : String} {document : Id} {keys : List String}
    {s : State μ ω} {key : String} {n : SymbolNode}
    (node : (keys.foldl (State.forwarded path document id) s).symbols.get? key = some n)
    (cites : n.Cites id) :
    (∃ m, s.symbols.get? key = some m ∧ m.Cites id) ∨ n.ended = false := by
  induction keys generalizing s with
  | nil => exact .inl ⟨n, node, cites⟩
  | cons first keys ih =>
      rw [List.foldl_cons] at node
      rcases ih node with ⟨m, here, cites⟩ | open_
      · obtain ⟨m', here', ended, -⟩ := node_of_foldl_forwarded node
        obtain rfl := Option.some.inj (here.symm.trans here')
        rw [get?_forwarded] at here
        obtain ⟨m₀, before, rfl⟩ := Option.map_eq_some_iff.1 here
        split at cites
        · rename_i taken
          rw [if_pos taken, (adds_reference m₀ path document id).ended] at ended
          exact .inr (ended.symm.trans taken.2)
        · exact .inl ⟨m₀, before, cites⟩
      · exact .inr open_

/-- A reference that came into the stream is one of a symbol that has written it down, and so
has each of its members that has a node, exactly if the node is open. -/
theorem Usage.reaches (records : c.sink.Records view) (usage : Usage c s s')
    (traced : s.Traced view) (ok : s'.failure = none) {r : Graph.Range}
    (later : (⟨id, .range r⟩ : Element) ∈ view s'.output)
    (new : (⟨id, .range r⟩ : Element) ∉ view s.output) (role : r.role = .reference) :
    ∃ key n, s'.symbols.get? key = some n ∧ n.resultSet = r.resultSet ∧
      ∀ member ∈ n.members, ∀ m, s'.symbols.get? member = some m →
        (m.Cites id ↔ m.ended = false) := by
  have same := usage.core
  obtain ⟨key, path, n, d, name, node, open_, rfl, home, rfl⟩ :=
    usage.referral records ok later new role
  obtain ⟨n', node', core⟩ := node_of_core same node
  refine ⟨key, n', node', (resultSet_of_core core).trans home, fun member inside m here => ?_⟩
  rw [members_of_core core] at inside
  obtain ⟨m₁, recorded, ended, cites⟩ := node_of_foldl_forwarded here
  have recorded' := recorded
  rw [show (s.referred c key path n d name).symbols = s.symbols.modify key _ from rfl,
    Table.get?_modify] at recorded'
  split at recorded'
  · rename_i own
    subst own
    rw [node, Option.map_some] at recorded'
    obtain rfl := Option.some.inj recorded'
    have adds := adds_reference n path d.id (s.lastId + 1)
    exact iff_of_true (cites _ (adds.new rfl)) (ended.symm.trans (adds.ended.trans open_))
  · rename_i other
    have forwarded : member ∈ n.forwards key :=
      List.mem_append_right _ (List.mem_filter.2 ⟨inside, by simpa using Ne.symm other⟩)
    refine ⟨fun written => ?_, cites_of_forwarded forwarded here⟩
    rcases open_of_cites_forwarded here written with ⟨m₂, recorded₂, written₂⟩ | open_
    · obtain rfl := Option.some.inj (recorded.symm.trans recorded₂)
      exact absurd written₂ (traced.not_cites recorded')
    · exact open_

end Steps

/-! ## Runs -/

section Runs

variable {μ ω : Type} {c : Context μ ω}

/-- **Which members a reference reaches.**  For every reference of a completed run there is the
moment that recorded it.  A member of its symbol that has a node in the end lists the reference
exactly if it had a node after this moment that was not frozen yet. -/
theorem run_forwards (c : Context μ ω) {canceled : Cancellation Nat} {memory : μ} {output : ω}
    {stats : Stats} {s' : State μ (ω × Array Element)}
    (completed : Yields (run c.recorded canceled) (.start c.recorded memory (output, #[]))
      (stats, none) s') :
    ∀ id r, (⟨id, .range r⟩ : Element) ∈ s'.stream → r.role = .reference →
      ∃ first m rest s₁ s₂, schedule c.oracle.files = first ++ m :: rest ∧
        Yields (performAll c.recorded first)
          ((State.start c.recorded memory (output, #[])).opened c.recorded) () s₁ ∧
        Yields (m.perform c.recorded) s₁ () s₂ ∧
        (⟨id, .range r⟩ : Element) ∉ s₁.stream ∧ (⟨id, .range r⟩ : Element) ∈ s₂.stream ∧
        ∀ key n, s'.symbols.get? key = some n → n.resultSet = r.resultSet →
          ∀ member ∈ n.members, ∀ k, s'.symbols.get? member = some k →
            ((∃ i ∈ Graph.itemsFrom k.resultSet s'.stream,
                i.property = .references ∧ id ∈ i.inVs) ↔
              ∃ b, s₂.symbols.get? member = some b ∧ b.ended = false) := by
  intro id r range role
  have records := records_recorded c
  obtain ⟨accounted, frozen⟩ := accounted_run records rfl completed
  have traced := traced_run records rfl completed
  obtain ⟨first, m, rest, s₁, s₂, split, performs, at_⟩ :=
    exists_recording records rfl completed range role
  refine ⟨first, m, rest, s₁, s₂, split, performs, at_.performed, at_.new, at_.later, ?_⟩
  obtain ⟨t, steps, before, usage⟩ :=
    at_.effect.usage_of_new records at_.ok at_.later at_.new role
  have traced_t := steps.traced records at_.traced.1 ((Step.usage usage).failure_none at_.ok)
  obtain ⟨key₂, n₂, node₂, home₂, reaches⟩ :=
    usage.reaches records traced_t at_.ok at_.later before role
  intro key n node home member inside k memberNode
  obtain ⟨rfl, core⟩ := at_.same accounted traced.wellFormed.ordered node₂ home₂ node home
  rw [members_of_core core] at inside
  have edges : Graph.itemsFrom k.resultSet s'.stream = k.items :=
    accounted.itemsFrom frozen memberNode
  rw [edges]
  constructor
  · rintro ⟨i, edge, property, listed⟩
    obtain ⟨u, steps₂, ok_u, rfl⟩ := at_.steps
    have none : NoNewCite id s₂ (u.concluded c.recorded) :=
      (steps₂.noNewCite records at_.traced.2 at_.accounted ok_u at_.later).trans
        (noNewCite_of_symbols (symbols_concluded u))
    obtain ⟨b, here, cites⟩ := none member k memberNode (.of_item edge property listed)
    exact ⟨b, here, (reaches member inside b here).1 cites⟩
  · rintro ⟨b, here, open_⟩
    obtain ⟨k', memberNode', continues⟩ := at_.changes.continues.2 member b here
    obtain rfl := Option.some.inj (memberNode.symm.trans memberNode')
    exact (continues.cites id ((reaches member inside b here).2 open_)).item

/-! ### A composite between its members -/

/-- A composite that is used after one of its members is declared and before the other one. -/
def guarded : Sketch :=
  let (file, s) := Sketch.addFile {} "a.go"
  let (guard, s) := s.addSymbol "guard" "v" {}
  let (early, s) := s.addSymbol "early" "v" {}
  let (late, s) := s.addSymbol "late" "v" {}
  let s := s.setComposite guard (some [early, late])
  let (_, s) := s.define file .variable "v" early
  let (_, s) := s.addUse file guard
  let (_, s) := s.addUse file guard
  let (_, s) := s.define file .variable "v" late
  s

/-- The start of the run over it. -/
def guardedStart : State Sketch.AliasLog (Unit × Array Element) :=
  .start (Context.ofSketch guarded).recorded [] ((), #[])

/-- The end of the run. -/
def guardedEnd : State Sketch.AliasLog (Unit × Array Element) :=
  (outcome (run (Context.ofSketch guarded).recorded false) guardedStart).2

theorem completed_guarded :
    Yields (run (Context.ofSketch guarded).recorded false) guardedStart
      ({ documents := 1, symbols := 3, definitions := 3, references := 1 }, none) guardedEnd :=
  yields_of_answer (by decide +kernel)

/-- The second use of the composite. -/
def guardedUse : Graph.Range :=
  { document := 3, resultSet := 6, span := ⟨⟨4, 0⟩, ⟨4, 1⟩⟩, role := .reference, text := "v" }

theorem guardedUse_mem : (⟨8, .range guardedUse⟩ : Element) ∈ guardedEnd.stream := by
  decide +kernel

theorem run_forwards_guarded :
    ∃ first m rest s₁ s₂, schedule guarded.oracle.files = first ++ m :: rest ∧
      Yields (performAll (Context.ofSketch guarded).recorded first)
        (guardedStart.opened (Context.ofSketch guarded).recorded) () s₁ ∧
      Yields (m.perform (Context.ofSketch guarded).recorded) s₁ () s₂ ∧
      (⟨8, .range guardedUse⟩ : Element) ∉ s₁.stream ∧
      (⟨8, .range guardedUse⟩ : Element) ∈ s₂.stream ∧
      ∀ key n, guardedEnd.symbols.get? key = some n → n.resultSet = guardedUse.resultSet →
        ∀ member ∈ n.members, ∀ k, guardedEnd.symbols.get? member = some k →
          ((∃ i ∈ Graph.itemsFrom k.resultSet guardedEnd.stream,
              i.property = .references ∧ 8 ∈ i.inVs) ↔
            ∃ b, s₂.symbols.get? member = some b ∧ b.ended = false) :=
  run_forwards (Context.ofSketch guarded) completed_guarded 8 guardedUse guardedUse_mem rfl

/-- The state after the second use of the composite. -/
def guardedUsed : State Sketch.AliasLog (Unit × Array Element) :=
  (outcome (performAll (Context.ofSketch guarded).recorded
    ((schedule guarded.oracle.files).take 9))
    (guardedStart.opened (Context.ofSketch guarded).recorded)).2

/-- **A member that is met later is not reached.**  The run is completed, the use of the
composite is recorded while its second member has no node, and so nothing is frozen; in the end
the member has a node, and does not list the use. -/
theorem late_member_unreached :
    ∃ stats n k, Yields (run (Context.ofSketch guarded).recorded false) guardedStart (stats, none)
        guardedEnd ∧
      (∃ first rest, schedule guarded.oracle.files = first ++ rest ∧
        Yields (performAll (Context.ofSketch guarded).recorded first)
          (guardedStart.opened (Context.ofSketch guarded).recorded) () guardedUsed) ∧
      (⟨8, .range guardedUse⟩ : Element) ∈ guardedUsed.stream ∧
      guardedUse.role = .reference ∧ guardedUsed.symbols.get? "late" = none ∧
      guardedEnd.symbols.get? "guard" = some n ∧ n.resultSet = guardedUse.resultSet ∧
      "late" ∈ n.members ∧ guardedEnd.symbols.get? "late" = some k ∧
      ¬ ∃ i ∈ Graph.itemsFrom k.resultSet guardedEnd.stream,
        i.property = .references ∧ 8 ∈ i.inVs := by
  have guard : (guardedEnd.symbols.get? "guard").map (fun n => (n.resultSet, n.members)) =
      some (6, ["early", "late"]) := by decide +kernel
  have late : (guardedEnd.symbols.get? "late").map (·.resultSet) = some 9 := by decide +kernel
  have unlisted : ∀ i ∈ Graph.itemsFrom 9 guardedEnd.stream, i.property = .definitions := by
    decide +kernel
  have used : Yields (performAll (Context.ofSketch guarded).recorded
      ((schedule guarded.oracle.files).take 9))
      (guardedStart.opened (Context.ofSketch guarded).recorded) () guardedUsed :=
    yields_of_answer (by decide +kernel)
  obtain ⟨n, node, found⟩ := Option.map_eq_some_iff.1 guard
  obtain ⟨resultSet, members⟩ := Prod.mk.inj found
  obtain ⟨k, memberNode, home⟩ := Option.map_eq_some_iff.1 late
  refine ⟨_, n, k, completed_guarded,
    ⟨_, _, (List.take_append_drop 9 (schedule guarded.oracle.files)).symm, used⟩,
    by decide +kernel, rfl, ?_, node, resultSet, by simp [members], memberNode, ?_⟩
  · exact Option.isNone_iff_eq_none.1 (by decide +kernel)
  · rintro ⟨i, edge, property, -⟩
    rw [home] at edge
    simp [unlisted i edge] at property

end Runs
end SymbolAtlas.Session
