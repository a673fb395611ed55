/-
# SymbolAtlas.Proofs.Session.Lifecycle -- the order in which things end

A consumer that reads the stream of a run once may forget a symbol when it has read its item
edges, and a document when it has read its contains edge: nothing about them comes any more
(`run_lifecycle`).  Symbols and documents end in an interleaved order, a file with the symbols
that are confined to it, then the other symbols, then the documents that no file of the run
has; so the proof goes through the state in which each of them ends.

`Ledger.Arranged` says that the item edges of a symbol stand together, and
`Changes.sealed` that a symbol which is frozen gets no further item edge.  A document that the
run does not visit is open as long as files are visited (`Course.outsideOpen`).
-/
import SymbolAtlas.Proofs.Session.Occurrences
import SymbolAtlas.Proofs.Session.Shelf

set_option autoImplicit false

namespace SymbolAtlas

open SymbolAtlas.Graph (Id Element Body)

namespace Session

/-! ## Item edges stand together -/

/-- The item edges of a symbol stand side by side, and behind its ranges. -/
structure Ledger.Arranged (l : Ledger) : Prop where
  together : ∀ resultSet, Graph.Consecutive (Body.ItemOf resultSet) l.stream
  behind : ∀ resultSet,
    Graph.NeverAfter (Body.ItemOf resultSet) (Body.RangeOf resultSet) l.stream

/-- A symbol that is open has no item edge. -/
theorem Ledger.Accounted.not_itemOf {l : Ledger} (h : l.Accounted) {key : String} {n : SymbolNode}
    (node : l.symbols.get? key = some n) (open_ : n.ended = false) :
    ∀ e ∈ l.stream, ¬ e.body.ItemOf n.resultSet :=
  Graph.not_itemOf_of_nil (by simpa [open_] using h.items key n node)

theorem Ledger.Arranged.append {l : Ledger} (h : l.Arranged) {more : List Element}
    {symbols : Table String SymbolNode}
    (other : ∀ e ∈ more, ∀ resultSet, ¬ e.body.ItemOf resultSet ∧ ¬ e.body.RangeOf resultSet) :
    Ledger.Arranged ⟨l.stream ++ more, symbols⟩ :=
  ⟨fun resultSet => (h.together resultSet).append fun e member => (other e member resultSet).1,
    fun resultSet => (h.behind resultSet).append fun e member => (other e member resultSet).2⟩

/-- The elements that a frozen symbol adds are its item edges. -/
theorem itemOf_of_items {n : SymbolNode} {added : List Element}
    (items : added.map (·.body) = n.items.map .item) {e : Element} (member : e ∈ added) :
    e.body.ItemOf n.resultSet := by
  have item : e.body ∈ n.items.map Body.item := items ▸ List.mem_map_of_mem member
  obtain ⟨i, edge, body⟩ := List.mem_map.1 item
  rw [← body]
  exact (n.mem_items edge).1

theorem Change.arranged {l l' : Ledger} (change : Change l l') (accounted : l.Accounted)
    (h : l.Arranged) : l'.Arranged := by
  cases change with
  | silent silent =>
      refine h.append fun e member resultSet => ?_
      have quiet := silent e member
      cases body : e.body <;> simp_all [Body.Silent, Body.ItemOf, Body.RangeOf]
  | retouched kept => exact ⟨h.together, h.behind⟩
  | enrolled fresh number blank open_ alone =>
      refine h.append fun e member resultSet => ?_
      obtain rfl := List.mem_singleton.1 member
      exact ⟨fun none => none, fun none => none⟩
  | @recorded key n f r id number node open_ home adds =>
      constructor
      · intro resultSet
        refine (h.together resultSet).append fun e member has => ?_
        obtain rfl := List.mem_singleton.1 member
        exact has
      · intro resultSet
        by_cases own : r.resultSet = resultSet
        · have none := accounted.not_itemOf node open_
          rw [home, own] at none
          exact .append_of_none none (List.pairwise_singleton _ _)
        · refine (h.behind resultSet).append fun e member has => own ?_
          obtain rfl := List.mem_singleton.1 member
          exact has
  | forwarded => exact ⟨h.together, h.behind⟩
  | @ended key n added node open_ items =>
      constructor
      · intro resultSet
        by_cases own : n.resultSet = resultSet
        · subst own
          exact Graph.consecutive_append_of_none (accounted.not_itemOf node open_) fun e member =>
            itemOf_of_items items member
        · exact (h.together resultSet).append fun e member has =>
            own ((itemOf_of_items items member).unique has)
      · intro resultSet
        exact (h.behind resultSet).append fun e member =>
          (itemOf_of_items items member).not_rangeOf

theorem Changes.arranged {l l' : Ledger} (changes : Changes l l') (accounted : l.Accounted)
    (ordered : Graph.Ordered l'.stream) (h : l.Arranged) : l'.Arranged := by
  induction changes with
  | refl => exact h
  | tail before last ih =>
      obtain ⟨⟨more, stream⟩, -⟩ := last.continues
      have ordered' := Graph.Ordered.of_append (stream ▸ ordered)
      exact last.arranged (Changes.accounted before accounted ordered') (ih ordered')

/-! ## A frozen symbol -/

/-- A symbol that is frozen stays so, and gets no further item edge. -/
structure Ledger.Sealed (l l' : Ledger) (key : String) (resultSet : Id) : Prop where
  stream : ∃ more, l'.stream = l.stream ++ more ∧ ∀ e ∈ more, ¬ e.body.ItemOf resultSet
  node : ∃ n, l'.symbols.get? key = some n ∧ n.ended = true ∧ n.resultSet = resultSet

theorem Change.sealed {l l' : Ledger} (change : Change l l') (accounted : l.Accounted)
    (ordered : Graph.Ordered l.stream) {key : String} {n : SymbolNode}
    (node : l.symbols.get? key = some n) (ended : n.ended = true) :
    l.Sealed l' key n.resultSet := by
  have one : ∀ {k f}, (∀ m, l.symbols.get? k = some m →
      (m.ended = true → (f m).ended = true) ∧ (f m).resultSet = m.resultSet) →
      ∃ n', (l.symbols.modify k f).get? key = some n' ∧ n'.ended = true ∧
        n'.resultSet = n.resultSet := by
    intro k f changed
    obtain ⟨n', node', stays, same⟩ := Table.get?_modify_rel
      (R := fun m m' => (m.ended = true → m'.ended = true) ∧ m'.resultSet = m.resultSet)
      (fun _ => ⟨fun h => h, rfl⟩) changed node
    exact ⟨n', node', stays ended, same⟩
  have unchanged : ∀ {symbols}, symbols = l.symbols →
      ∃ n', symbols.get? key = some n' ∧ n'.ended = true ∧ n'.resultSet = n.resultSet :=
    fun same => ⟨n, same ▸ node, ended, rfl⟩
  have quiet : ∃ more, l.stream = l.stream ++ more ∧ ∀ e ∈ more, ¬ e.body.ItemOf n.resultSet :=
    ⟨[], by simp, by simp⟩
  cases change with
  | silent silent =>
      refine ⟨⟨_, rfl, fun e member has => ?_⟩, unchanged rfl⟩
      have := silent e member
      cases body : e.body <;> simp_all [Body.Silent, Body.ItemOf]
  | retouched kept =>
      exact ⟨quiet, one fun m here => ⟨fun h => (kept m here).ended.trans h,
        (kept m here).resultSet⟩⟩
  | @enrolled key' m r fresh number blank open_ alone =>
      refine ⟨⟨_, rfl, fun e member has => ?_⟩, n, ?_, ended, rfl⟩
      · obtain rfl := List.mem_singleton.1 member
        exact has
      · have different : key' ≠ key := by
          rintro rfl
          simp [fresh] at node
        simp [Table.get?_insert, different, node]
  | @recorded key' m f r id number node' open_ home adds =>
      refine ⟨⟨_, rfl, fun e member has => ?_⟩, one fun m _ =>
        ⟨fun h => (adds m).ended.trans h, (adds m).resultSet⟩⟩
      obtain rfl := List.mem_singleton.1 member
      exact has
  | forwarded range reference source home linked apart node' open_ adds =>
      exact ⟨quiet, one fun m _ => ⟨fun h => (adds m).ended.trans h, (adds m).resultSet⟩⟩
  | @ended key' m added node' open_ items =>
      refine ⟨⟨added, rfl, fun e member has => ?_⟩, one fun _ _ => ⟨fun _ => rfl, rfl⟩⟩
      have same := (itemOf_of_items items member).unique has
      obtain rfl := accounted.key_unique ordered node' node same
      obtain rfl := Option.some.inj (node'.symm.trans node)
      simp [ended] at open_

theorem Changes.sealed {l l' : Ledger} (changes : Changes l l') (accounted : l.Accounted)
    (ordered : Graph.Ordered l'.stream) {key : String} {n : SymbolNode}
    (node : l.symbols.get? key = some n) (ended : n.ended = true) :
    l.Sealed l' key n.resultSet := by
  induction changes with
  | refl => exact ⟨⟨[], by simp, by simp⟩, n, node, ended, rfl⟩
  | @tail l₁ l₂ before last ih =>
      obtain ⟨⟨_, stream⟩, -⟩ := last.continues
      have ordered₁ := Graph.Ordered.of_append (stream ▸ ordered)
      obtain ⟨⟨more, stream₁, none₁⟩, n₁, node₁, ended₁, same₁⟩ := ih ordered₁
      have accounted₁ := Changes.accounted before accounted ordered₁
      obtain ⟨⟨more', stream₂, none₂⟩, n₂, node₂, ended₂, same₂⟩ :=
        last.sealed accounted₁ ordered₁ node₁ ended₁
      refine ⟨⟨more ++ more', by rw [stream₂, stream₁, List.append_assoc], fun e member => ?_⟩,
        n₂, node₂, ended₂, same₂.trans same₁⟩
      rcases List.mem_append.1 member with first | later
      · exact none₁ e first
      · exact same₁ ▸ none₂ e later

/-! ## Documents that no file of the run has -/

section Outside

variable {μ ω : Type} {c : Context μ ω} {view : ω → List Element}

/-- The documents of files that the run does not visit are open. -/
def State.OutsideOpen (s : State μ ω) : Prop :=
  s.documents.All fun path d => path ∉ s.traversal → d.ended = false

theorem Detail.outsideOpen {s s' : State μ ω} (step : Detail c s s') (h : s.OutsideOpen) :
    s'.OutsideOpen := by
  cases step with
  | asked | counted | sited | attached | hovered | joined | awaited => exact h
  | began fresh outside => exact Table.All.insert h fun _ => rfl
  | defined => exact Table.All.modify h fun _ _ open_ => open_
  | confined => exact Table.All.modify h fun _ _ open_ => open_

theorem Moves.outsideOpen {s s' : State μ ω} (moves : Moves c s s') (h : s.OutsideOpen) :
    s'.OutsideOpen := by
  induction moves with
  | refl => exact h
  | tail _ last ih =>
      cases last with
      | detail step => exact step.outsideOpen ih
      | growth step =>
          cases step with
          | enrolled | based | composed => exact ih

theorem Visit.outsideOpen {s s' : State μ ω} {subject : Option Symbol}
    (visit : Visit c s s' subject) (h : s.OutsideOpen) : s'.OutsideOpen := by
  cases subject with
  | none =>
      obtain ⟨t, details, rfl | rfl⟩ := visit
      · exact details.moves.outsideOpen h
      · exact details.moves.outsideOpen h
  | some sym =>
      obtain ⟨t, r, details | usage⟩ := visit
      · exact details.moves.outsideOpen (r.moves.outsideOpen h)
      · obtain ⟨_, _, _, _, _, rfl⟩ := usage.shape
        exact Table.All.modify (r.moves.outsideOpen h) fun _ _ open_ => open_

/-- Only a file that the run visits is closed at a moment. -/
theorem Moment.Effect.outsideOpen {m : Moment} {s s' : State μ ω} (effect : m.Effect c s s')
    (inside : ∀ path, m = .closing path → path ∈ s.traversal) (h : s.OutsideOpen) :
    s'.OutsideOpen := by
  cases m with
  | opening path =>
      obtain ⟨-, -, rfl⟩ := effect
      exact Table.All.insert h fun _ => rfl
  | entering path n => exact Visit.outsideOpen effect h
  | leaving n => exact Visit.outsideOpen effect h
  | closing path =>
      obtain ⟨d, t, document, writable, endings, same, frozen, rfl⟩ := effect
      have traversal : t.traversal = s.traversal := endings.steps.settled.1
      obtain ⟨_, _, _, shape⟩ := t.documentEnded_eq (c := c) path d
      rw [shape]
      unfold State.OutsideOpen
      simp only [traversal, same]
      refine Table.All.modify h fun _ _ _ outside => absurd (inside path rfl) outside

theorem Course.outsideOpen {moments : List Moment} {s s' : State μ ω}
    (course : Course c moments s s')
    (inside : ∀ path, .closing path ∈ moments → path ∈ s.traversal) (h : s.OutsideOpen) :
    s'.OutsideOpen := by
  induction course with
  | nil s => exact h
  | @cons m rest s t s' performed effect next ih =>
      have same := effect.steps.settled.1
      refine ih (fun path later => ?_) (effect.outsideOpen (fun path own => ?_) h)
      · rw [same]
        exact inside path (List.mem_cons_of_mem _ later)
      · exact inside path (own ▸ List.mem_cons_self)

/-- When all symbols are frozen, only documents are left to end. -/
theorem Endings.noItem (records : c.sink.Records view) {s s' : State μ ω}
    (endings : Endings c s s') (frozen : s.SymbolsFrozen) (ok : s'.failure = none) :
    ∃ more, view s'.output = view s.output ++ more ∧ ∀ e ∈ more, ¬ e.body.IsItem := by
  induction endings with
  | refl => exact ⟨[], by simp, by simp⟩
  | tail before last ih =>
      obtain ⟨more, seen, none⟩ := ih ((Step.ending last).failure_none ok)
      cases last with
      | symbol node open_ =>
          have ended := Endings.symbolsFrozen before frozen _ _ node
          simp [open_] at ended
      | @document path d document writable listed =>
          obtain ⟨added, seen', listing⟩ := view_documentEnded records ok
          refine ⟨more ++ added, by rw [seen', seen, List.append_assoc], fun e member => ?_⟩
          rcases List.mem_append.1 member with old | new
          · exact none e old
          · rcases listed_closing listing with ⟨-, rfl⟩ | ⟨-, k, rfl⟩
            · simp at new
            · obtain rfl := List.mem_singleton.1 new
              exact fun item => item

end Outside

/-! ## Runs -/

section Runs

variable {μ ω : Type} {c : Context μ ω} {view : ω → List Element}

/-- What joins the project to its documents concerns no range and no symbol. -/
structure Concluding (last : List Element) : Prop where
  joins : ∀ e ∈ last, ∃ ids, e.body = .contains 2 ids

namespace Concluding

variable {last : List Element} (h : Concluding last)

include h

theorem not_item : ∀ e ∈ last, ¬ e.body.IsItem := by
  intro e member has
  obtain ⟨ids, body⟩ := h.joins e member
  rw [body] at has
  exact has

theorem not_itemOf (resultSet : Id) : ∀ e ∈ last, ¬ e.body.ItemOf resultSet := by
  intro e member has
  obtain ⟨ids, body⟩ := h.joins e member
  rw [body] at has
  exact has

theorem not_rangeOf (resultSet : Id) : ∀ e ∈ last, ¬ e.body.RangeOf resultSet := by
  intro e member has
  obtain ⟨ids, body⟩ := h.joins e member
  rw [body] at has
  exact has

theorem not_rangeIn (document : Id) : ∀ e ∈ last, ¬ e.body.RangeIn document := by
  intro e member has
  obtain ⟨ids, body⟩ := h.joins e member
  rw [body] at has
  exact has

theorem rangesIn_nil (document : Id) : Graph.rangesIn document last = [] := by
  refine List.eq_nil_iff_forall_not_mem.2 fun entry member => ?_
  obtain ⟨inside, range⟩ := Graph.mem_rangesIn.1 member
  exact h.not_rangeIn document _ range inside

theorem listingsOf_nil {outV : Id} (other : outV ≠ 2) : Graph.listingsOf outV last = [] := by
  refine List.eq_nil_iff_forall_not_mem.2 fun inVs member => ?_
  obtain ⟨k, contains⟩ := Graph.mem_listingsOf.1 member
  obtain ⟨ids, body⟩ := h.joins _ contains
  exact other (Body.contains.inj body).1

theorem idsOf_nil (v : Graph.Vertex) : Graph.idsOf v last = [] := by
  refine Graph.idsOf_eq_nil fun e member => ?_
  obtain ⟨ids, body⟩ := h.joins e member
  rw [body]
  exact fun none => nomatch none

end Concluding

/-- The project is joined to its documents by the last element. -/
theorem view_concluded (records : c.sink.Records view) {s : State μ ω} (project : s.projectId = 2)
    (sorted : (s.shelf view).Sorted) (ok : (s.concluded c).failure = none) :
    ∃ last, view (s.concluded c).output = view s.output ++ last ∧ Concluding last ∧
      (s.documents.values = [] ∨
        ∃ k, last = [⟨k, .contains 2 (Graph.idsOf .document (view s.output))⟩]) := by
  have listed : Graph.idsOf .document (view s.output) = s.documents.values.map (·.id) :=
    sorted.listed
  unfold State.concluded at ok ⊢
  cases empty : s.documents.entries.isEmpty with
  | true =>
      refine ⟨[], by simp, ⟨by simp⟩, .inl ?_⟩
      rw [Table.values, List.isEmpty_iff.1 empty, List.map_nil]
  | false =>
      simp only [empty, Bool.false_eq_true, if_false] at ok ⊢
      have taken : (s.emitted c (.contains s.projectId (s.documents.values.map (·.id)))).failure =
          none := ok
      refine ⟨_, view_emitted records taken, ⟨by simp [project]⟩, .inr ⟨s.lastId + 1, ?_⟩⟩
      rw [project, listed]

/-- What is known at a moment of a run: the state belongs to the stream, its ranges are
accounted for, its documents are sorted and its item edges arranged. -/
structure State.Filed (view : ω → List Element) (s : State μ ω) : Prop where
  traced : s.Traced view
  accounted : (s.ledger view).Accounted
  sorted : (s.shelf view).Sorted
  arranged : (s.ledger view).Arranged

theorem State.Filed.ordered {s : State μ ω} (h : s.Filed view) :
    Graph.Ordered (view s.output) :=
  h.traced.wellFormed.ordered

theorem Steps.filed (records : c.sink.Records view) {s s' : State μ ω} (steps : Steps c s s')
    (h : s.Filed view) (ok : s'.failure = none) :
    s'.Filed view ∧ Changes (s.ledger view) (s'.ledger view) ∧
      SameIds s.documents s'.documents := by
  have traced := steps.traced records h.traced ok
  obtain ⟨accounted, changes⟩ := steps.accounted records h.traced h.accounted ok
  obtain ⟨sorted, same, -⟩ := steps.sorted records h.traced h.sorted ok
  exact ⟨⟨traced, accounted, sorted, changes.arranged h.accounted traced.wellFormed.ordered
    h.arranged⟩, changes, same⟩

theorem filed_opened (records : c.sink.Records view) {memory : μ} {output : ω}
    (empty : view output = [])
    (ok : ((State.start c memory output).opened c).failure = none) :
    ((State.start c memory output).opened c).Filed view := by
  refine ⟨traced_opened records empty ok, accounted_opened records empty ok,
    sorted_opened records empty ok, ?_⟩
  have none : ∀ e ∈ view ((State.start c memory output).opened c).output, ∀ resultSet,
      ¬ e.body.ItemOf resultSet := by
    rw [view_opened records empty ok]
    intro e member resultSet has
    simp only [List.mem_cons, List.not_mem_nil, or_false] at member
    rcases member with rfl | rfl <;> exact has
  exact ⟨fun resultSet => Graph.consecutive_of_none fun e member => none e member resultSet,
    fun resultSet => Graph.neverAfter_of_none fun e member => none e member resultSet⟩

theorem Course.filed (records : c.sink.Records view) {memory : μ} {output : ω}
    (empty : view output = []) {moments : List Moment} {s : State μ ω}
    (course : Course c moments ((State.start c memory output).opened c) s)
    (ok : s.failure = none) : s.Filed view :=
  (course.steps.filed records (filed_opened records empty (course.steps.failure_none ok)) ok).1

/-- A completed run performs its schedule in `t`, has ended what was open in `u`, and all that it
handed over by then is in order. -/
theorem filed_run (records : c.sink.Records view) {canceled : Cancellation Nat} {memory : μ}
    {output : ω} {stats : Stats} {s' : State μ ω} (empty : view output = [])
    (completed : Yields (run c canceled) (.start c memory output) (stats, none) s') :
    ∃ t u, Course c (schedule c.oracle.files) ((State.start c memory output).opened c) t ∧
      Endings c t u ∧ u.SymbolsFrozen ∧ (t.failure = none ∧ t.Filed view) ∧
      (u.failure = none ∧ u.Filed view) ∧ s' = u.concluded c ∧ s'.failure = none := by
  obtain ⟨t, u, course, endings, frozen, -, shape, ok⟩ := course_run completed
  have okU : u.failure = none := failure_none_of_concluded (shape ▸ ok)
  have okT := endings.steps.failure_none okU
  have filed := course.filed records empty okT
  obtain ⟨filedU, -, -⟩ := endings.steps.filed records filed okU
  exact ⟨t, u, course, endings, frozen, ⟨okT, filed⟩, ⟨okU, filedU⟩, shape, ok⟩

/-- A document that is open when a symbol is frozen is closed behind the item edges of the
symbol. -/
theorem neverAfter_sealed {s s' : State μ ω} (h : s.Filed view)
    (changes : Changes (s.ledger view) (s'.ledger view)) (ordered : Graph.Ordered (view s'.output))
    {key path : String} {n : SymbolNode} {d : DocumentNode}
    (node : s.symbols.get? key = some n) (ended : n.ended = true)
    (document : s.documents.get? path = some d) (open_ : d.ended = false) :
    Graph.NeverAfter (Body.ListsFrom d.id) (Body.ItemOf n.resultSet) (view s'.output) := by
  obtain ⟨⟨more, seen, none⟩, -⟩ := changes.sealed h.accounted ordered node ended
  have unlisted : Graph.listingsOf d.id (view s.output) = _ := h.sorted.listings path d document
  rw [if_neg (by simp [open_])] at unlisted
  have seen : view s'.output = view s.output ++ more := seen
  rw [seen]
  exact .append_of_none (Graph.not_listsFrom_of_nil unlisted) (Graph.neverAfter_of_last none)

/-- The item edges of a symbol that ends with a file precede the contains edge of the file. -/
theorem neverAfter_closing (records : c.sink.Records view) {path key : String}
    {rest : List Moment} {s₁ s₂ t u : State μ ω} (filed : s₁.Filed view)
    (course : Course c (.closing path :: rest) s₁ t) (endings : Endings c t u)
    (ok : (u.concluded c).failure = none)
    (performed : Yields ((Moment.closing path).perform c) s₁ () s₂) {n : SymbolNode}
    {d : DocumentNode} (node : s₂.symbols.get? key = some n) (ended : n.ended = true)
    (document : u.documents.get? path = some d) :
    Graph.NeverAfter (Body.ListsFrom d.id) (Body.ItemOf n.resultSet)
      (view (u.concluded c).output) := by
  have ok' := failure_none_of_concluded ok
  obtain ⟨effect, next⟩ : (Moment.closing path).Effect c s₁ s₂ ∧ Course c rest s₂ t := by
    cases course with
    | cons performed' effect next =>
        obtain ⟨-, rfl⟩ := performed.unique performed'
        exact ⟨effect, next⟩
  obtain ⟨d₁, v, document₁, writable, ends, same, frozen, rfl⟩ := effect
  have documentV : v.documents.get? path = some d₁ := by rw [same, document₁]
  have stepsV : Steps c s₁ v := .head (.turned s₁ none) ends.steps
  have closing : Step c v (v.documentEnded c path d₁) :=
    .ending (.document documentV writable frozen)
  have stepsU : Steps c v u := .head closing (next.steps.trans endings.steps)
  obtain ⟨filedV, -, -⟩ := stepsV.filed records filed (stepsU.failure_none ok')
  obtain ⟨filedU, changes, ids⟩ := stepsU.filed records filedV ok'
  obtain ⟨d', document', number⟩ := ids path d₁ documentV
  obtain rfl := Option.some.inj (document.symm.trans document')
  have nodeV : v.symbols.get? key = some n := by
    obtain ⟨_, _, _, shape⟩ := v.documentEnded_eq (c := c) path d₁
    rwa [shape] at node
  rw [number]
  refine neverAfter_sealed filedV (changes.trans (changes_concluded records ok)) ?_ nodeV ended
    documentV writable
  exact (traced_concluded filedU.traced records ok).wellFormed.ordered

/-- When all symbols are frozen, a document that is open is closed behind all item edges. -/
theorem neverAfter_frozen (records : c.sink.Records view) {s u : State μ ω} (filed : s.Filed view)
    (endings : Endings c s u) (symbols : s.SymbolsFrozen) (open_ : s.OutsideOpen)
    (ok : u.failure = none) {path : String} {d : DocumentNode}
    (document : u.documents.get? path = some d) (outside : path ∉ s.traversal) :
    Graph.NeverAfter (Body.ListsFrom d.id) Body.IsItem (view u.output) := by
  have member : path ∈ s.documents.keys := endings.paths ▸ Table.mem_keys_iff.2 ⟨d, document⟩
  obtain ⟨d₀, document₀⟩ := Table.mem_keys_iff.1 member
  obtain ⟨-, -, ids⟩ := endings.steps.filed records filed ok
  obtain ⟨d', document', number⟩ := ids path d₀ document₀
  obtain rfl := Option.some.inj (document.symm.trans document')
  have unlisted : Graph.listingsOf d₀.id (view s.output) = _ :=
    filed.sorted.listings path d₀ document₀
  rw [if_neg (by simp [open_ path d₀ document₀ outside])] at unlisted
  obtain ⟨more, seen, none⟩ := endings.noItem records symbols ok
  rw [seen, number]
  exact .append_of_none (Graph.not_listsFrom_of_nil unlisted) (Graph.neverAfter_of_last none)

/-- In the end every document that has ranges lists them, in their order. -/
theorem listings_frozen {l : Shelf} (sorted : l.Sorted)
    (frozen : ∀ path d, l.documents.get? path = some d → d.ended = true) {id : Id}
    (document : id ∈ Graph.idsOf .document l.stream) :
    Graph.listingsOf id l.stream = (if (Graph.rangesIn id l.stream).isEmpty then []
      else [(Graph.rangesIn id l.stream).map Prod.fst]) := by
  obtain ⟨path, d, here, rfl⟩ := sorted.holds_iff.1 (Graph.mem_idsOf.1 document)
  have ranges : (Graph.rangesIn d.id l.stream).map Prod.fst = d.ranges.toList :=
    sorted.ranges path d here
  have none : (Graph.rangesIn d.id l.stream).isEmpty = d.ranges.isEmpty := by
    rw [← List.isEmpty_map (f := Prod.fst), ranges, Array.isEmpty_toList]
  rw [sorted.listings path d here, none, ranges, frozen path d here]
  cases d.ranges.isEmpty <;> rfl

/-- **The order in which things end.**  In the stream of a completed run

* a document has a contains edge if it has ranges, then exactly one, which lists them in the
  order of the stream, and no range of the document follows it;
* the item edges of a result set stand side by side, and no range of it follows them;
* the item edges of a symbol that ends when a file is closed precede the contains edge of the
  document of that file;
* every item edge precedes the contains edges of the documents that the run does not visit;
* if there is a document, the last element is the only contains edge of the project, and it
  lists the documents in the order in which they began. -/
theorem run_lifecycle (c : Context μ ω) {canceled : Cancellation Nat} {memory : μ} {output : ω}
    {stats : Stats} {s' : State μ (ω × Array Element)}
    (completed : Yields (run c.recorded canceled) (.start c.recorded memory (output, #[]))
      (stats, none) s') :
    (∀ id ∈ Graph.idsOf .document s'.stream,
      Graph.listingsOf id s'.stream = (if (Graph.rangesIn id s'.stream).isEmpty then []
        else [(Graph.rangesIn id s'.stream).map Prod.fst]) ∧
      Graph.NeverAfter (Body.ListsFrom id) (Body.RangeIn id) s'.stream) ∧
    (∀ resultSet, Graph.Consecutive (Body.ItemOf resultSet) s'.stream ∧
      Graph.NeverAfter (Body.ItemOf resultSet) (Body.RangeOf resultSet) s'.stream) ∧
    (∀ first path rest s₁ s₂, schedule c.oracle.files = first ++ .closing path :: rest →
      Yields (performAll c.recorded first)
        ((State.start c.recorded memory (output, #[])).opened c.recorded) () s₁ →
      Yields ((Moment.closing path).perform c.recorded) s₁ () s₂ →
      ∀ key n n', s₁.symbols.get? key = some n → n.ended = false →
        s₂.symbols.get? key = some n' → n'.ended = true →
        ∀ d, s'.documents.get? path = some d →
          Graph.NeverAfter (Body.ListsFrom d.id) (Body.ItemOf n'.resultSet) s'.stream) ∧
    (∀ path d, s'.documents.get? path = some d → path ∉ c.oracle.files.map (·.root.file) →
      Graph.NeverAfter (Body.ListsFrom d.id) Body.IsItem s'.stream) ∧
    (Graph.idsOf .project s'.stream = [2] ∧
      Graph.idsOf .document s'.stream = s'.documents.values.map (·.id) ∧
      (Graph.idsOf .document s'.stream).Nodup ∧
      (Graph.idsOf .document s'.stream ≠ [] → ∃ before k, s'.stream =
        before ++ [⟨k, .contains 2 (Graph.idsOf .document s'.stream)⟩] ∧
        Graph.listingsOf 2 before = [])) := by
  have records := records_recorded c
  obtain ⟨t, u₁, u, course, endings₁, same, symbols, endings₂, documents, rfl, ok, -⟩ :=
    phases_run completed
  have ok' := failure_none_of_concluded ok
  have steps₁ : Steps c.recorded _ u₁ := course.steps.trans endings₁.steps
  have ok₁ := endings₂.steps.failure_none ok'
  have begun := filed_opened records rfl (steps₁.failure_none ok₁)
  obtain ⟨filed₁, -, -⟩ := steps₁.filed records begun ok₁
  obtain ⟨filed, -, ids⟩ := endings₂.steps.filed records filed₁ ok'
  obtain ⟨last, seen, concluding, joined⟩ :=
    view_concluded records filed.traced.project filed.sorted ok
  have stream : (u.concluded c.recorded).stream = u.stream ++ last := seen
  have idsOf : ∀ v, Graph.idsOf v (u.concluded c.recorded).stream = Graph.idsOf v u.stream := by
    intro v
    rw [stream, Graph.idsOf_append, concluding.idsOf_nil, List.append_nil]
  refine ⟨fun id document => ?_, fun resultSet => ?_, ?_, ?_, ?_, ?_, ?_, fun some_ => ?_⟩
  · rw [idsOf] at document
    obtain ⟨path, d, here, number⟩ := filed.sorted.holds_iff.1 (Graph.mem_idsOf.1 document)
    have apart : id ≠ 2 := number ▸ filed.sorted.id_ne filed.ordered here
    have lists := listings_frozen filed.sorted documents document
    rw [stream, Graph.listingsOf_append, Graph.rangesIn_append, concluding.rangesIn_nil,
      concluding.listingsOf_nil apart, List.append_nil, List.append_nil]
    exact ⟨lists, (filed.sorted.behind id).append (concluding.not_rangeIn id)⟩
  · rw [stream]
    exact ⟨(filed.arranged.together resultSet).append (concluding.not_itemOf resultSet),
      (filed.arranged.behind resultSet).append (concluding.not_rangeOf resultSet)⟩
  · intro first path rest s₁ s₂ split before closing key n n' node open_ node' ended d document
    obtain ⟨s₁', course₁, course₂⟩ := (split ▸ course : Course _ (first ++ _) _ _).split
    obtain ⟨-, rfl⟩ := before.unique course₁.performs
    have later : Steps c.recorded _ u :=
      course₂.steps.trans (endings₁.steps.trans endings₂.steps)
    have ok₂ := later.failure_none ok'
    obtain ⟨filed₀, -, -⟩ := course₁.steps.filed records begun ok₂
    rw [documents_concluded] at document
    exact neverAfter_closing records filed₀ course₂ (endings₁.trans endings₂) ok closing node'
      ended document
  · intro path d document outside
    rw [documents_concluded] at document
    have settled : t.traversal = c.oracle.files.map (·.root.file) := course.steps.settled.1
    have traversal : u₁.traversal = t.traversal := endings₁.steps.settled.1
    have openT : t.OutsideOpen :=
      course.outsideOpen (fun _ closing => closing_inside closing) (Table.all_empty _)
    have openU : u₁.OutsideOpen := by
      unfold State.OutsideOpen
      rw [same, traversal]
      exact openT
    rw [stream]
    refine Graph.NeverAfter.append ?_ concluding.not_item
    exact neverAfter_frozen records filed₁ endings₂ symbols openU ok' document
      (by rwa [traversal, settled])
  · rw [idsOf]
    exact filed.sorted.project
  · rw [idsOf, documents_concluded]
    exact filed.sorted.listed
  · rw [idsOf]
    exact filed.ordered.nodup_idsOf _
  · rw [idsOf] at some_ ⊢
    rcases joined with none | ⟨k, rfl⟩
    · refine absurd ?_ some_
      have listed : Graph.idsOf .document u.stream = u.documents.values.map (·.id) :=
        filed.sorted.listed
      rw [listed, none, List.map_nil]
    · exact ⟨u.stream, k, stream, filed.sorted.pending⟩

/-! ### A run over two files and a library -/

/-- Two files, a library that they use, and a variable inside a block of the second file that
is first met through an alias in the first one. -/
def layered : Sketch :=
  let (library, s) := Sketch.addLibrary {} "lib.go"
  let (first, s) := s.addFile "a.go"
  let (second, s) := s.addFile "b.go"
  let (imported, s) := s.addSymbol "lib.Lib" "Lib" {}
  let (inner, s) := s.addSymbol "x" "x" {}
  let (outer, s) := s.addSymbol "A" "A" {}
  let s := s.setAlias outer (some inner)
  let (upper, s) := s.addSymbol "T" "T" {}
  let (lower, s) := s.addSymbol "U" "U" {}
  let (method, s) := s.addSymbol "T.f" "f" {}
  let (other, s) := s.addSymbol "U.f" "f" {}
  let s := (s.setContainer method upper).setContainer other lower
  let s := (s.setBases upper "f" [other]).setBases lower "f" [method]
  let (_, s) := s.define library .function "Lib" imported
  let (declared, s) := s.define first .importSpec "A" outer
  let s := s.setExportAlias declared "B"
  let (_, s) := s.define first .method "f" method
  let (_, s) := s.addUse first imported
  let (_, s) := s.addUse first outer
  let (function, s) := s.declare second .function "g"
  let (block, s) := s.addChild function .block ""
  let (_, s) := s.define block .variable "x" inner
  let (_, s) := s.addUse block inner
  let (_, s) := s.addUse second method
  s

/-- A session over a sketch that nobody listens to. -/
def Context.ofSketch (s : Sketch) : Context Sketch.AliasLog Unit where
  oracle := s.oracle
  sink _ _ := .ok ()
  options := {}
  locate _ := some { path := "p" }

theorem completed_layered :
    (outcome (run (Context.ofSketch layered).recorded false)
      (.start (Context.ofSketch layered).recorded [] ((), #[]))).1.toOption =
      some ({ documents := 3, symbols := 5, definitions := 4, references := 4, monikers := 1,
              exportAliases := 1, skipped := 1 }, none) := by
  decide +kernel

theorem run_lifecycle_layered :
    ∃ stats s', Yields (run (Context.ofSketch layered).recorded false)
      (.start (Context.ofSketch layered).recorded [] ((), #[])) (stats, none) s' ∧
      stats.documents = 3 ∧
      ∀ path d, s'.documents.get? path = some d → path ∉ ["a.go", "b.go"] →
        Graph.NeverAfter (Body.ListsFrom d.id) Body.IsItem s'.stream := by
  have completed := yields_of_answer completed_layered
  obtain ⟨-, -, -, outside, -⟩ := run_lifecycle (Context.ofSketch layered) completed
  exact ⟨_, _, completed, rfl, outside⟩

end Runs

end Session
end SymbolAtlas
