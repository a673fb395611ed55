/-
# SymbolAtlas.Proofs.Session.Occurrences -- no occurrence is lost, doubled or misfiled

What a completed run says about the occurrences of symbols.  Every range is listed once,
by one item edge of its own result set, under its role and in its document.  What else a
result set lists are references of the symbols that it is a base or a member of.  And a
reference reaches every base that is still open when it is recorded.

The first two are read off the ledger of a frozen session (`Ledger.Accounted`).  For the
last one the moment is needed at which a reference comes into the stream
(`Course.moment_of`): only the visit of an identifier records references, as its last
step, so the bases that are open after the moment have got theirs.
-/
import SymbolAtlas.Proofs.Session.Ledger

set_option autoImplicit false

namespace SymbolAtlas.Session

open SymbolAtlas.Graph (Id Element)

/-! ## Item edges of a frozen node -/

theorem flatMap_inVs_itemsOf (resultSet : Id) (o : Occurrences) :
    (itemsOf resultSet o).flatMap (·.inVs) = o.ids := by
  unfold itemsOf Occurrences.ids
  split <;> split <;> simp_all

/-- The item edges of a node list what it has written down. -/
theorem SymbolNode.flatMap_inVs_items (n : SymbolNode) : n.items.flatMap (·.inVs) = n.ids := by
  rw [SymbolNode.items, List.flatMap_assoc]
  simp only [flatMap_inVs_itemsOf]
  rfl

/-- What is counted once in all parts is in one part only, and there once. -/
theorem exists_filter_eq_singleton {α β : Type} [DecidableEq β] {parts : List α}
    {f : α → List β} {x : β} (once : (parts.flatMap f).count x = 1) :
    ∃ part, parts.filter (x ∈ f ·) = [part] ∧ (f part).count x = 1 := by
  induction parts with
  | nil => simp at once
  | cons part parts ih =>
      rw [List.flatMap_cons, List.count_append] at once
      by_cases here : x ∈ f part
      · have positive := List.count_pos_iff.2 here
        have rest : (parts.flatMap f).count x = 0 := by omega
        have none : parts.filter (x ∈ f ·) = [] := by
          refine List.filter_eq_nil_iff.2 fun other member inside => ?_
          exact List.count_eq_zero.1 rest (List.mem_flatMap.2 ⟨other, member,
            by simpa using inside⟩)
        exact ⟨part, by rw [List.filter_cons_of_pos (by simpa using here), none], by omega⟩
      · obtain ⟨other, only, counted⟩ := ih (by rw [List.count_eq_zero.2 here] at once; omega)
        exact ⟨other, by rw [List.filter_cons_of_neg (by simpa using here), only], counted⟩

section Frozen

variable {μ ω : Type} {view : ω → List Element} {s : State μ ω}

/-- An item edge that lists a range has the role and the document of the range. -/
theorem State.Traced.item {key : String} {n : SymbolNode} (traced : s.Traced view)
    (node : s.symbols.get? key = some n) {i : Graph.Item} (edge : i ∈ n.items) {id : Id}
    (listed : id ∈ i.inVs) {r : Graph.Range}
    (range : (⟨id, .range r⟩ : Element) ∈ view s.output) :
    (i.property = .definitions ∧ r.role = .definition ∨
      i.property = .references ∧ r.role = .reference) ∧ i.document = r.document := by
  obtain ⟨-, path, o, here, document, sort⟩ := n.mem_items edge
  have filed := (traced.symbols key n node).occurrences path o here
  have found : ∀ {role}, Graph.Located (view s.output) role o.document id →
      r.role = role ∧ r.document = o.document := by
    rintro role ⟨r', range', role', document'⟩
    obtain rfl : r = r' := by simpa using traced.wellFormed.ordered.unique range range' rfl
    exact ⟨role', document'⟩
  rcases sort with ⟨property, inVs⟩ | ⟨property, inVs⟩
  · obtain ⟨role, home⟩ := found (filed.definitions id (by simpa [inVs] using listed))
    exact ⟨.inl ⟨property, role⟩, document.trans home.symm⟩
  · obtain ⟨role, home⟩ := found (filed.references id (by simpa [inVs] using listed))
    exact ⟨.inr ⟨property, role⟩, document.trans home.symm⟩

/-- The item edges in the stream of a frozen session are those of its nodes. -/
theorem Ledger.Accounted.itemsFrom (accounted : (s.ledger view).Accounted)
    (frozen : s.SymbolsFrozen) {key : String} {n : SymbolNode}
    (node : s.symbols.get? key = some n) :
    Graph.itemsFrom n.resultSet (view s.output) = n.items := by
  have items : Graph.itemsFrom n.resultSet (view s.output) = _ := accounted.items key n node
  rw [items, if_pos (frozen key n node)]

/-- Every range is listed once, by one item edge, under its role and in its document. -/
theorem listed_once (traced : s.Traced view) (accounted : (s.ledger view).Accounted)
    (frozen : s.SymbolsFrozen) {id : Id} {r : Graph.Range}
    (range : (⟨id, .range r⟩ : Element) ∈ view s.output) :
    ∃ i, (Graph.itemsFrom r.resultSet (view s.output)).filter (id ∈ ·.inVs) = [i] ∧
      i.inVs.count id = 1 ∧ (i.property = .definitions ↔ r.role = .definition) ∧
      i.document = r.document := by
  obtain ⟨key, n, node, home, once⟩ := accounted.owned id r range
  have edges := accounted.itemsFrom frozen node
  rw [← n.flatMap_inVs_items] at once
  obtain ⟨i, only, counted⟩ := exists_filter_eq_singleton once
  have member : i ∈ n.items ∧ id ∈ i.inVs := by
    have inside : i ∈ n.items.filter (id ∈ ·.inVs) := only ▸ List.mem_singleton.2 rfl
    simpa using List.mem_filter.1 inside
  obtain ⟨sort, document⟩ := traced.item node member.1 member.2 range
  refine ⟨i, by rw [← home, edges, only], counted, ?_, document⟩
  rcases sort with ⟨property, role⟩ | ⟨property, role⟩ <;> simp [property, role]

/-- A range of another symbol is a reference, of one that this symbol is a base or a member
of. -/
theorem listed_foreign (traced : s.Traced view) (accounted : (s.ledger view).Accounted)
    (frozen : s.SymbolsFrozen) {key : String} {n : SymbolNode}
    (node : s.symbols.get? key = some n) {i : Graph.Item}
    (edge : i ∈ Graph.itemsFrom n.resultSet (view s.output)) {id : Id} (listed : id ∈ i.inVs)
    {r : Graph.Range} (range : (⟨id, .range r⟩ : Element) ∈ view s.output)
    (foreign : r.resultSet ≠ n.resultSet) :
    i.property = .references ∧ r.role = .reference ∧
      ∃ source m, s.symbols.get? source = some m ∧ source ≠ key ∧
        m.resultSet = r.resultSet ∧ (key ∈ m.bases ∨ key ∈ m.members) := by
  rw [accounted.itemsFrom frozen node] at edge
  have written : id ∈ n.ids := by
    rw [← n.flatMap_inVs_items]
    exact List.mem_flatMap.2 ⟨i, edge, listed⟩
  obtain ⟨r', range', own | ⟨role, source, m, node', home, linked⟩⟩ :=
    accounted.origin key n node id written
  all_goals obtain rfl : r = r' := by simpa using traced.wellFormed.ordered.unique range range' rfl
  · exact absurd own foreign
  · obtain ⟨sort, -⟩ := traced.item node edge listed range
    refine ⟨?_, role, source, m, node', ?_, home, linked⟩
    · rcases sort with ⟨-, definition⟩ | ⟨property, -⟩
      · simp [role] at definition
      · exact property
    · rintro rfl
      obtain rfl := Option.some.inj (node.symm.trans node')
      exact foreign home.symm

end Frozen

/-! ## Where references come from -/

section References

variable {μ ω : Type} {c : Context μ ω} {view : ω → List Element}

/-- Every reference of the later stream is in the earlier one. -/
def NoNewReference (view : ω → List Element) (s s' : State μ ω) : Prop :=
  ∀ id r, (⟨id, .range r⟩ : Element) ∈ view s'.output → r.role = .reference →
    (⟨id, .range r⟩ : Element) ∈ view s.output

theorem NoNewReference.refl (s : State μ ω) : NoNewReference view s s :=
  fun _ _ inside _ => inside

theorem NoNewReference.trans {s t s' : State μ ω} (first : NoNewReference view s t)
    (second : NoNewReference view t s') : NoNewReference view s s' :=
  fun id r inside role => first id r (second id r inside role) role

theorem noNewReference_emitted (records : c.sink.Records view) {s : State μ ω}
    {body : Graph.Body} (ok : (s.emitted c body).failure = none)
    (other : ∀ r, body = .range r → r.role ≠ .reference) :
    NoNewReference view s (s.emitted c body) := by
  intro id r inside role
  rw [view_emitted records ok] at inside
  rcases List.mem_append.1 inside with old | new
  · exact old
  · obtain ⟨-, rfl⟩ : id = s.lastId + 1 ∧ .range r = body := by simpa using new
    exact absurd role (other r rfl)

theorem noNewReference_emittedAll (records : c.sink.Records view) {s : State μ ω}
    {items : List Graph.Item} (ok : (s.emittedAll c (items.map .item)).failure = none) :
    NoNewReference view s (s.emittedAll c (items.map .item)) := by
  intro id r inside role
  obtain ⟨added, seen, bodies⟩ := view_emittedAll records ok
  rw [seen] at inside
  rcases List.mem_append.1 inside with old | new
  · exact old
  · have item : Graph.Body.range r ∈ _ := bodies ▸ List.mem_map_of_mem new
    simp at item

theorem noNewReference_defined (records : c.sink.Records view) {s : State μ ω}
    {key path : String} {n : SymbolNode} {d : DocumentNode} {declaration name : Node}
    (ok : (s.defined c key path n d declaration name).failure = none) :
    NoNewReference view s (s.defined c key path n d declaration name) := by
  refine noNewReference_emitted records ok ?_
  rintro r same
  obtain rfl := Graph.Body.range.inj same
  simp

theorem Detail.noNewReference (records : c.sink.Records view) {s s' : State μ ω}
    (step : Detail c s s') (ok : s'.failure = none) : NoNewReference view s s' := by
  cases step with
  | asked | counted | sited | awaited | confined => exact .refl s
  | began fresh outside => exact noNewReference_emitted records ok (by simp)
  | defined => exact noNewReference_defined records ok
  | attached node open_ new =>
      exact (noNewReference_emitted records (failure_none_of_emitted ok) (by simp)).trans
        (noNewReference_emitted records ok (by simp))
  | hovered contents node =>
      exact (noNewReference_emitted records (failure_none_of_emitted ok) (by simp)).trans
        (noNewReference_emitted records ok (by simp))
  | joined node alias_ targetNode => exact noNewReference_emitted records ok (by simp)

theorem Growth.noNewReference (records : c.sink.Records view) {s s' : State μ ω}
    (step : Growth c s s') (ok : s'.failure = none) : NoNewReference view s s' := by
  cases step with
  | enrolled => exact noNewReference_emitted records ok (by simp)
  | based | composed => exact .refl s

theorem Ending.noNewReference (records : c.sink.Records view) {s s' : State μ ω}
    (step : Ending c s s') (ok : s'.failure = none) : NoNewReference view s s' := by
  cases step with
  | symbol node open_ => exact noNewReference_emittedAll records ok
  | document document writable frozen =>
      unfold State.documentEnded at ok ⊢
      split
      · exact .refl s
      · rw [if_neg ‹_›] at ok
        exact noNewReference_emitted records ok (by simp)

/-- Only the last step of a visit records a reference. -/
theorem Moves.noNewReference (records : c.sink.Records view) {s s' : State μ ω}
    (moves : Moves c s s') (ok : s'.failure = none) : NoNewReference view s s' := by
  induction moves with
  | refl => exact .refl s
  | tail _ last ih =>
      refine (ih (last.step.failure_none ok)).trans ?_
      cases last with
      | detail step => exact step.noNewReference records ok
      | growth step => exact step.noNewReference records ok

theorem Endings.noNewReference (records : c.sink.Records view) {s s' : State μ ω}
    (endings : Endings c s s') (ok : s'.failure = none) : NoNewReference view s s' := by
  induction endings with
  | refl => exact .refl s
  | tail _ last ih =>
      exact (ih ((Step.ending last).failure_none ok)).trans (last.noNewReference records ok)

theorem get?_forwarded (path : String) (document id : Id) (s : State μ ω) (key other : String) :
    (s.forwarded path document id key).symbols.get? other =
      (s.symbols.get? other).map fun n =>
        if key = other ∧ n.ended = false then n.addReferenceId path document id else n := by
  unfold State.forwarded
  by_cases own : key = other
  · subst own
    cases node : s.symbols.get? key with
    | none => simp [node]
    | some n => cases ended : n.ended <;> simp [node, ended]
  · cases s.symbols.get? key with
    | none => simp [own]
    | some n => cases ended : n.ended <;> simp [ended, own, Table.get?_modify]

/-- Forwarding loses nothing that a node has written down, and freezes nothing. -/
theorem node_of_foldl_forwarded {path : String} {document id : Id} {keys : List String}
    {s : State μ ω} {key : String} {n : SymbolNode}
    (node : (keys.foldl (State.forwarded path document id) s).symbols.get? key = some n) :
    ∃ m, s.symbols.get? key = some m ∧ m.ended = n.ended ∧ ∀ x, m.Cites x → n.Cites x := by
  induction keys generalizing s with
  | nil => exact ⟨n, node, rfl, fun _ cites => cites⟩
  | cons first keys ih =>
      obtain ⟨m, here, ended, cites⟩ := ih node
      rw [get?_forwarded] at here
      obtain ⟨m₀, before, rfl⟩ := Option.map_eq_some_iff.1 here
      have adds := adds_reference m₀ path document id
      refine ⟨m₀, before, ?_, fun x old => cites x ?_⟩
      · rw [← ended]
        split
        · exact adds.ended.symm
        · rfl
      · split
        · exact adds.old x old
        · exact old

/-- A reference is written down by every open symbol to which it is forwarded. -/
theorem cites_of_forwarded {path : String} {document id : Id} {keys : List String}
    {s : State μ ω} {key : String} {n : SymbolNode} (member : key ∈ keys)
    (node : (keys.foldl (State.forwarded path document id) s).symbols.get? key = some n)
    (open_ : n.ended = false) : n.Cites id := by
  induction keys generalizing s with
  | nil => simp at member
  | cons first keys ih =>
      rcases List.mem_cons.1 member with rfl | later
      · rw [List.foldl_cons] at node
        obtain ⟨m, here, ended, cites⟩ := node_of_foldl_forwarded node
        rw [get?_forwarded] at here
        obtain ⟨m₀, before, rfl⟩ := Option.map_eq_some_iff.1 here
        have adds := adds_reference m₀ path document id
        refine cites id ?_
        split at ended
        · rw [if_pos ‹_›]
          exact adds.new rfl
        · rename_i closed
          exact absurd ⟨rfl, ended.trans open_⟩ closed
      · exact ih later node

/-- A reference that came into the stream is one of a symbol all of whose open bases have
written it down. -/
def State.Forwarded (s : State μ ω) (id : Id) (r : Graph.Range) : Prop :=
  ∃ key n, s.symbols.get? key = some n ∧ n.resultSet = r.resultSet ∧
    ∀ base ∈ n.bases, ∀ m, s.symbols.get? base = some m → m.ended = false → m.Cites id

/-- A usage that brings a reference into the stream is one of an open symbol, and the reference
is forwarded from there. -/
theorem Usage.referral (records : c.sink.Records view) {s s' : State μ ω} (usage : Usage c s s')
    (ok : s'.failure = none) {id : Id} {r : Graph.Range}
    (later : (⟨id, .range r⟩ : Element) ∈ view s'.output)
    (new : (⟨id, .range r⟩ : Element) ∉ view s.output) (role : r.role = .reference) :
    ∃ key path n d name, s.symbols.get? key = some n ∧ n.ended = false ∧ id = s.lastId + 1 ∧
      n.resultSet = r.resultSet ∧
      s' = (n.forwards key).foldl (State.forwarded path d.id id)
        (s.referred c key path n d name) := by
  cases usage with
  | marked => exact absurd (noNewReference_defined records ok id r later role) new
  | @referred key path n d name node open_ document writable =>
      obtain ⟨symbols, shape⟩ := State.foldl_forwarded_eq path d.id (s.lastId + 1)
        (n.forwards key) (s.referred c key path n d name)
      have first : (s.referred c key path n d name).failure = none := by
        rw [shape] at ok
        exact ok
      have seen : view (s.referred c key path n d name).output = _ := view_emitted records first
      have home : id = s.lastId + 1 ∧ n.resultSet = r.resultSet := by
        rw [shape] at later
        rcases List.mem_append.1 (seen ▸ later) with old | last
        · exact absurd old new
        · obtain ⟨rfl, rfl⟩ : id = s.lastId + 1 ∧ _ := by simpa using last
          exact ⟨rfl, rfl⟩
      obtain ⟨rfl, home⟩ := home
      exact ⟨key, path, n, d, name, node, open_, rfl, home, rfl⟩

theorem Usage.forwarded (records : c.sink.Records view) {s s' : State μ ω} (usage : Usage c s s')
    (ok : s'.failure = none) {id : Id} {r : Graph.Range}
    (later : (⟨id, .range r⟩ : Element) ∈ view s'.output)
    (new : (⟨id, .range r⟩ : Element) ∉ view s.output) (role : r.role = .reference) :
    s'.Forwarded id r := by
  have same := usage.core
  obtain ⟨key, path, n, d, name, node, -, -, home, rfl⟩ :=
    usage.referral records ok later new role
  obtain ⟨n', node', core⟩ := node_of_core same node
  refine ⟨key, n', node', (resultSet_of_core core).trans home, fun base member m here open_ => ?_⟩
  rw [bases_of_core core] at member
  exact cites_of_forwarded (List.mem_append_left _ member) here open_

/-- A visit that brings a reference into the stream ends with the use of an identifier. -/
theorem Visit.usage_of_new (records : c.sink.Records view) {s s' : State μ ω}
    {subject : Option Symbol} (visit : Visit c s s' subject) (ok : s'.failure = none) {id : Id}
    {r : Graph.Range} (later : (⟨id, .range r⟩ : Element) ∈ view s'.output)
    (new : (⟨id, .range r⟩ : Element) ∉ view s.output) (role : r.role = .reference) :
    ∃ t, Steps c s t ∧ (⟨id, .range r⟩ : Element) ∉ view t.output ∧ Usage c t s' := by
  cases subject with
  | none =>
      obtain ⟨t, details, rfl | rfl⟩ := visit
      · exact absurd (details.moves.noNewReference records ok id r later role) new
      · exact absurd (details.moves.noNewReference records ok id r later role) new
  | some sym =>
      obtain ⟨t, resolution, details | usage⟩ := visit
      · have moves : Moves c s s' := resolution.moves.trans details.moves
        exact absurd (moves.noNewReference records ok id r later role) new
      · have none := resolution.moves.noNewReference records ((Step.usage usage).failure_none ok)
        exact ⟨t, resolution.moves.steps, fun old => new (none id r old role), usage⟩

theorem Moment.Effect.usage_of_new (records : c.sink.Records view) {s s' : State μ ω}
    {m : Moment} (effect : m.Effect c s s') (ok : s'.failure = none) {id : Id} {r : Graph.Range}
    (later : (⟨id, .range r⟩ : Element) ∈ view s'.output)
    (new : (⟨id, .range r⟩ : Element) ∉ view s.output) (role : r.role = .reference) :
    ∃ t, Steps c s t ∧ (⟨id, .range r⟩ : Element) ∉ view t.output ∧ Usage c t s' := by
  cases m with
  | opening path =>
      obtain ⟨-, -, rfl⟩ := effect
      have taken : (s.emitted c (.document (documentBody c path))).failure = none := ok
      have none := noNewReference_emitted records taken (by simp)
      exact absurd (none id r later role) new
  | entering path n => exact Visit.usage_of_new records effect ok later new role
  | leaving n => exact Visit.usage_of_new records effect ok later new role
  | closing path =>
      obtain ⟨d, t, document, writable, endings, same, frozen, rfl⟩ := effect
      have last : Ending c t (t.documentEnded c path d) :=
        .document (same ▸ document) writable frozen
      have all : Endings c { s with current := none } _ := endings.tail last
      exact absurd (all.noNewReference records ok id r later role) new

theorem Moment.Effect.forwarded (records : c.sink.Records view) {s s' : State μ ω} {m : Moment}
    (effect : m.Effect c s s') (ok : s'.failure = none) {id : Id} {r : Graph.Range}
    (later : (⟨id, .range r⟩ : Element) ∈ view s'.output)
    (new : (⟨id, .range r⟩ : Element) ∉ view s.output) (role : r.role = .reference) :
    s'.Forwarded id r := by
  obtain ⟨t, -, before, usage⟩ := effect.usage_of_new records ok later new role
  exact usage.forwarded records ok later before role

/-- What holds after a course and not before it begins to hold at one of its moments. -/
theorem Course.moment_of {P : State μ ω → Prop} {moments : List Moment} {s s' : State μ ω}
    (course : Course c moments s s') (before : ¬ P s) (after : P s') :
    ∃ first m rest s₁ s₂, moments = first ++ m :: rest ∧ Course c first s s₁ ∧ ¬ P s₁ ∧
      Yields (m.perform c) s₁ () s₂ ∧ m.Effect c s₁ s₂ ∧ P s₂ ∧ Course c rest s₂ s' := by
  induction course with
  | nil s => exact absurd after before
  | @cons m rest s t s' performed effect next ih =>
      by_cases now : P t
      · exact ⟨[], m, rest, s, t, rfl, .nil s, before, performed, effect, now, next⟩
      · obtain ⟨first, m', rest', s₁, s₂, split, course, others⟩ := ih now after
        exact ⟨m :: first, m', rest', s₁, s₂, by simp [split], .cons performed effect course,
          others⟩

end References

/-! ## Runs -/

theorem SymbolNode.Cites.item {n : SymbolNode} {id : Id} (cites : n.Cites id) :
    ∃ i ∈ n.items, i.property = .references ∧ id ∈ i.inVs := by
  obtain ⟨path, o, here, member⟩ := cites
  have some_ : o.references.isEmpty = false := by
    cases empty : o.references.isEmpty with
    | false => rfl
    | true => simp [Array.isEmpty_iff.1 empty] at member
  have value : o ∈ n.occurrences.values := Table.mem_values_iff.2 ⟨path, here⟩
  refine ⟨{ outV := n.resultSet, inVs := o.references.toList, document := o.document
            property := .references },
    List.mem_flatMap.2 ⟨o, value, List.mem_append_right _ ?_⟩, rfl, ?_⟩
  · rw [if_neg (by simp [some_])]
    exact List.mem_singleton.2 rfl
  · exact Array.mem_toList_iff.2 member

section Runs

variable {μ ω : Type} {c : Context μ ω} {view : ω → List Element}

/-- All that is known when a run is completed: the ledger is accounted for and frozen. -/
theorem accounted_run (records : c.sink.Records view) {canceled : Cancellation Nat} {memory : μ}
    {output : ω} (empty : view output = []) {stats : Stats} {s' : State μ ω}
    (completed : Yields (run c canceled) (.start c memory output) (stats, none) s') :
    (s'.ledger view).Accounted ∧ s'.SymbolsFrozen := by
  obtain ⟨t, u, course, endings, frozen, -, rfl, ok⟩ := course_run completed
  have steps : Steps c _ u := course.steps.trans endings.steps
  have ok' := failure_none_of_concluded ok
  have opened := steps.failure_none ok'
  obtain ⟨accounted, -⟩ := steps.accounted records (traced_opened records empty opened)
    (accounted_opened records empty opened) ok'
  have traced := traced_run records empty completed
  refine ⟨(changes_concluded records ok).accounted accounted traced.wellFormed.ordered, ?_⟩
  unfold State.concluded
  split <;> exact frozen

theorem noNewReference_concluded (records : c.sink.Records view) {s : State μ ω}
    (ok : (s.concluded c).failure = none) : NoNewReference view s (s.concluded c) := by
  unfold State.concluded at ok ⊢
  split
  · exact .refl s
  · rw [if_neg ‹_›] at ok
    exact noNewReference_emitted records ok (by simp)

/-- The bases of a node that is not unfinished have nodes. -/
theorem State.Settled.base {s : State μ ω} (settled : s.Settled) {key base : String}
    {n : SymbolNode} (node : s.symbols.get? key = some n) (member : base ∈ n.bases) :
    s.Has base := by
  obtain ⟨n', v, node', -, links, bases, -⟩ := settled key ⟨n, node⟩
  obtain rfl := Option.some.inj (node.symm.trans node')
  rw [bases] at member
  cases v with
  | method container bases =>
      obtain ⟨inside, -⟩ := List.mem_filter.1 member
      obtain ⟨sym, link, rfl⟩ := List.mem_map.1 inside
      exact links sym link
  | _ => simp [Variant.baseKeys] at member

/-- The moment `m` between `s₁` and `s₂` records a reference, in a run that ends in `s'`. -/
structure Recording (c : Context μ ω) (view : ω → List Element) (id : Id) (r : Graph.Range)
    (m : Moment) (s₁ s₂ s' : State μ ω) : Prop where
  performed : Yields (m.perform c) s₁ () s₂
  effect : m.Effect c s₁ s₂
  new : (⟨id, .range r⟩ : Element) ∉ view s₁.output
  later : (⟨id, .range r⟩ : Element) ∈ view s₂.output
  ok : s₂.failure = none
  traced : s₁.Traced view ∧ s₂.Traced view
  accounted : (s₂.ledger view).Accounted
  settled : s₂.Settled
  /-- From this moment on the nodes that exist keep their links and what they have written
  down. -/
  kept : s₂.Kept s'
  changes : Changes (s₂.ledger view) (s'.ledger view)
  steps : ∃ u, Steps c s₂ u ∧ u.failure = none ∧ s' = u.concluded c

/-- The symbol of the reference is the same one then and now. -/
theorem Recording.same {id : Id} {r : Graph.Range} {m : Moment} {s₁ s₂ s' : State μ ω}
    (h : Recording c view id r m s₁ s₂ s') (accounted : (s'.ledger view).Accounted)
    (ordered : Graph.Ordered (view s'.output)) {key₂ key : String} {n₂ n : SymbolNode}
    (node₂ : s₂.symbols.get? key₂ = some n₂) (home₂ : n₂.resultSet = r.resultSet)
    (node : s'.symbols.get? key = some n) (home : n.resultSet = r.resultSet) :
    key₂ = key ∧ n.core = n₂.core := by
  obtain ⟨n', node', core⟩ := h.kept key₂ n₂ node₂
  obtain rfl : key₂ = key := accounted.key_unique ordered node' node
    ((resultSet_of_core core).trans (home₂.trans home.symm))
  obtain rfl := Option.some.inj (node'.symm.trans node)
  exact ⟨rfl, core⟩

/-- Every reference of a completed run was recorded at one of its moments. -/
theorem exists_recording (records : c.sink.Records view) {canceled : Cancellation Nat} {memory : μ}
    {output : ω} (empty : view output = []) {stats : Stats} {s' : State μ ω}
    (completed : Yields (run c canceled) (.start c memory output) (stats, none) s') {id : Id}
    {r : Graph.Range} (range : (⟨id, .range r⟩ : Element) ∈ view s'.output)
    (role : r.role = .reference) :
    ∃ first m rest s₁ s₂, schedule c.oracle.files = first ++ m :: rest ∧
      Yields (performAll c first) ((State.start c memory output).opened c) () s₁ ∧
      Recording c view id r m s₁ s₂ s' := by
  obtain ⟨t, u, course, endings, -, -, rfl, ok⟩ := course_run completed
  have ok' := failure_none_of_concluded ok
  have after : (⟨id, .range r⟩ : Element) ∈ view t.output :=
    endings.noNewReference records ok' id r
      (noNewReference_concluded records ok id r range role) role
  have steps : Steps c _ u := course.steps.trans endings.steps
  have opened := steps.failure_none ok'
  have before : (⟨id, .range r⟩ : Element) ∉
      view ((State.start c memory output).opened c).output := by
    rw [view_opened records empty opened]
    simp
  obtain ⟨first, m, rest, s₁, s₂, split, course₁, new, performed, effect, later, course₂⟩ :=
    course.moment_of (P := fun s => (⟨id, .range r⟩ : Element) ∈ view s.output) before after
  have settled : s₂.Settled :=
    (effect.settled (course₁.settled (settled_opened memory output)).2).2
  have kept : s₂.Kept (u.concluded c) :=
    ((course₂.settled settled).1.trans (kept_of_core endings.core)).trans
      (kept_of_core (core_concluded u))
  have steps₁ : Steps c _ s₂ := course₁.steps.trans effect.steps
  have steps₂ : Steps c s₂ u := course₂.steps.trans endings.steps
  have ok₂ := steps₂.failure_none ok'
  have begun := traced_opened records empty opened
  have traced₂ := steps₁.traced records begun ok₂
  have accounted₂ := (steps₁.accounted records begun (accounted_opened records empty opened) ok₂).1
  have changes : Changes (s₂.ledger view) ((u.concluded c).ledger view) :=
    (steps₂.accounted records traced₂ accounted₂ ok').2.trans (changes_concluded records ok)
  exact ⟨first, m, rest, s₁, s₂, split, course₁.performs, performed, effect, new, later, ok₂,
    ⟨course₁.steps.traced records begun (effect.steps.failure_none ok₂), traced₂⟩, accounted₂,
    settled, kept, changes, u, steps₂, ok', rfl⟩

/-- The moment at which a reference is recorded.  After it, the bases of its symbol exist,
and those that are open list the reference in the end. -/
theorem reference_reaches_bases (records : c.sink.Records view) {canceled : Cancellation Nat}
    {memory : μ} {output : ω} (empty : view output = []) {stats : Stats} {s' : State μ ω}
    (completed : Yields (run c canceled) (.start c memory output) (stats, none) s') {id : Id}
    {r : Graph.Range} (range : (⟨id, .range r⟩ : Element) ∈ view s'.output)
    (role : r.role = .reference) :
    ∃ first m rest s₁ s₂, schedule c.oracle.files = first ++ m :: rest ∧
      Yields (performAll c first) ((State.start c memory output).opened c) () s₁ ∧
      Yields (m.perform c) s₁ () s₂ ∧
      (⟨id, .range r⟩ : Element) ∉ view s₁.output ∧ (⟨id, .range r⟩ : Element) ∈ view s₂.output ∧
      ∀ key n, s'.symbols.get? key = some n → n.resultSet = r.resultSet →
        ∀ base ∈ n.bases, ∃ b, s₂.symbols.get? base = some b ∧ (b.ended = false →
          ∃ i ∈ Graph.itemsFrom b.resultSet (view s'.output),
            i.property = .references ∧ id ∈ i.inVs) := by
  obtain ⟨accounted, frozen⟩ := accounted_run records empty completed
  have traced := traced_run records empty completed
  obtain ⟨first, m, rest, s₁, s₂, split, performs, at_⟩ :=
    exists_recording records empty completed range role
  refine ⟨first, m, rest, s₁, s₂, split, performs, at_.performed, at_.new, at_.later, ?_⟩
  obtain ⟨key₂, n₂, node₂, home₂, cites⟩ :=
    at_.effect.forwarded records at_.ok at_.later at_.new role
  intro key n node home base member
  obtain ⟨rfl, core⟩ := at_.same accounted traced.wellFormed.ordered node₂ home₂ node home
  rw [bases_of_core core] at member
  obtain ⟨b, base_⟩ := at_.settled.base node₂ member
  refine ⟨b, base_, fun open_ => ?_⟩
  obtain ⟨b', base', continues⟩ := at_.changes.continues.2 base b base_
  rw [← continues.resultSet, accounted.itemsFrom frozen base']
  exact (continues.cites id (cites base member b base_ open_)).item

/-- **No occurrence is lost, doubled or misfiled.**  In the stream of a completed run

* every range is listed once, by exactly one item edge of its result set, which has its role
  and its document;
* every other range that an item edge lists is a reference of another symbol, one that has
  this symbol among its bases or its members;
* for every reference there is the moment that recorded it, and all bases of its symbol that
  are open after this moment list it among their references. -/
theorem run_occurrences (c : Context μ ω) {canceled : Cancellation Nat} {memory : μ} {output : ω}
    {stats : Stats} {s' : State μ (ω × Array Element)}
    (completed : Yields (run c.recorded canceled) (.start c.recorded memory (output, #[]))
      (stats, none) s') :
    (∀ id r, (⟨id, .range r⟩ : Element) ∈ s'.stream →
      ∃ i, (Graph.itemsFrom r.resultSet s'.stream).filter (id ∈ ·.inVs) = [i] ∧
        i.inVs.count id = 1 ∧ (i.property = .definitions ↔ r.role = .definition) ∧
        i.document = r.document) ∧
    (∀ key n, s'.symbols.get? key = some n → ∀ i ∈ Graph.itemsFrom n.resultSet s'.stream,
      ∀ id ∈ i.inVs, ∀ r, (⟨id, .range r⟩ : Element) ∈ s'.stream → r.resultSet ≠ n.resultSet →
        i.property = .references ∧ r.role = .reference ∧
          ∃ source m, s'.symbols.get? source = some m ∧ source ≠ key ∧
            m.resultSet = r.resultSet ∧ (key ∈ m.bases ∨ key ∈ m.members)) ∧
    (∀ id r, (⟨id, .range r⟩ : Element) ∈ s'.stream → r.role = .reference →
      ∃ first m rest s₁ s₂, schedule c.oracle.files = first ++ m :: rest ∧
        Yields (performAll c.recorded first)
          ((State.start c.recorded memory (output, #[])).opened c.recorded) () s₁ ∧
        Yields (m.perform c.recorded) s₁ () s₂ ∧
        (⟨id, .range r⟩ : Element) ∉ s₁.stream ∧ (⟨id, .range r⟩ : Element) ∈ s₂.stream ∧
        ∀ key n, s'.symbols.get? key = some n → n.resultSet = r.resultSet →
          ∀ base ∈ n.bases, ∃ b, s₂.symbols.get? base = some b ∧ (b.ended = false →
            ∃ i ∈ Graph.itemsFrom b.resultSet s'.stream,
              i.property = .references ∧ id ∈ i.inVs)) := by
  have records := records_recorded c
  have traced := traced_run records rfl completed
  obtain ⟨accounted, frozen⟩ := accounted_run records rfl completed
  refine ⟨fun id r range => listed_once traced accounted frozen range,
    fun key n node i edge id listed r range foreign =>
      listed_foreign traced accounted frozen node edge listed range foreign,
    fun id r range role => reference_reaches_bases records rfl completed range role⟩

theorem run_occurrences_cyclic :
    ∃ stats s', Yields (run cyclicContext.recorded false)
      (.start cyclicContext.recorded [] ((), #[])) (stats, none) s' ∧
      stats.definitions = 2 ∧ stats.references = 2 ∧
      ∀ id r, (⟨id, .range r⟩ : Element) ∈ s'.stream →
        ∃ i, (Graph.itemsFrom r.resultSet s'.stream).filter (id ∈ ·.inVs) = [i] ∧
          i.inVs.count id = 1 ∧ (i.property = .definitions ↔ r.role = .definition) ∧
          i.document = r.document := by
  have completed := yields_of_answer completed_cyclic
  exact ⟨_, _, completed, rfl, rfl, (run_occurrences cyclicContext completed).1⟩

end Runs

end SymbolAtlas.Session
