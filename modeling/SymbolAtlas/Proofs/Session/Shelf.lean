/-
# SymbolAtlas.Proofs.Session.Shelf -- documents and their ranges

A `Shelf` is what matters for the documents of a session: the stream and the nodes of the
documents.  A step of the session is a few changes of the shelf (`Step.shelves`), and there
are five of them: elements that concern no document, a document that is touched without its
ranges, a new document, a range that is filed, and a document that is closed.

`Shelf.Sorted` is the invariant: a document has filed its ranges in the order in which they
were emitted, its contains edge lists them once it is closed, and no range of it comes after
that.
-/
import Mathlib.Data.List.Nodup
import SymbolAtlas.Proofs.Graph.Order
import SymbolAtlas.Proofs.Session.Stream

set_option autoImplicit false

namespace SymbolAtlas

open SymbolAtlas.Graph (Id Element)

namespace Graph

/-- An element that is neither a project, nor a document, nor a range, nor a contains edge. -/
def Body.Loose : Body → Prop
  | .project _ | .document _ | .range _ | .contains _ _ => False
  | _ => True

variable {extra : List Element}

theorem idsOf_of_loose (loose : ∀ e ∈ extra, e.body.Loose) :
    idsOf .document extra = [] ∧ idsOf .project extra = [] := by
  constructor
  · refine idsOf_eq_nil fun e member => ?_
    have := loose e member
    cases body : e.body <;> simp_all [Body.vertex?, Body.Loose]
  · refine idsOf_eq_nil fun e member => ?_
    have := loose e member
    cases body : e.body <;> simp_all [Body.vertex?, Body.Loose]

theorem rangesIn_of_loose (loose : ∀ e ∈ extra, e.body.Loose) (document : Id) :
    rangesIn document extra = [] := by
  simp only [rangesIn, List.filterMap_eq_nil_iff]
  intro e member
  have := loose e member
  cases body : e.body <;> simp_all [Body.Loose]

theorem listingsOf_of_loose (loose : ∀ e ∈ extra, e.body.Loose) (outV : Id) :
    listingsOf outV extra = [] := by
  simp only [listingsOf, List.filterMap_eq_nil_iff]
  intro e member
  have := loose e member
  cases body : e.body <;> simp_all [Body.Loose]

theorem not_rangeIn_of_loose (loose : ∀ e ∈ extra, e.body.Loose) (document : Id) :
    ∀ e ∈ extra, ¬ e.body.RangeIn document := by
  intro e member has
  have := loose e member
  cases body : e.body <;> simp_all [Body.Loose, Body.RangeIn]

end Graph

namespace Session

/-- The stream and the nodes of the documents. -/
structure Shelf where
  stream : List Element
  documents : Table String DocumentNode

/-- The edge that closes a document, if it has ranges. -/
def DocumentNode.listing (d : DocumentNode) : List Graph.Body :=
  if d.ranges.isEmpty then [] else [.contains d.id d.ranges.toList]

/-- One change of a shelf. -/
inductive Shelving : Shelf → Shelf → Prop where
  | loose {l : Shelf} {extra : List Element} (loose : ∀ e ∈ extra, e.body.Loose) :
      Shelving l ⟨l.stream ++ extra, l.documents⟩
  | touched {l : Shelf} {path : String} {f : DocumentNode → DocumentNode}
      (same : ∀ d, (f d).id = d.id ∧ (f d).ranges = d.ranges ∧ (f d).ended = d.ended) :
      Shelving l ⟨l.stream, l.documents.modify path f⟩
  | began {l : Shelf} {path : String} {d : DocumentNode} {body : Graph.Document}
      (fresh : l.documents.get? path = none) (number : d.id = (l.stream.length + 1 : Int))
      (blank : d.ranges = #[]) (open_ : d.ended = false) :
      Shelving l ⟨l.stream ++ [⟨d.id, .document body⟩], l.documents.insert path d⟩
  | filed {l : Shelf} {path : String} {d : DocumentNode} {r : Graph.Range} {id : Id}
      (document : l.documents.get? path = some d) (open_ : d.ended = false)
      (home : r.document = d.id) :
      Shelving l ⟨l.stream ++ [⟨id, .range r⟩],
        l.documents.modify path fun d => { d with ranges := d.ranges.push id }⟩
  | closed {l : Shelf} {path : String} {d : DocumentNode} {added : List Element}
      (document : l.documents.get? path = some d) (open_ : d.ended = false)
      (listed : added.map (·.body) = d.listing) :
      Shelving l ⟨l.stream ++ added,
        l.documents.modify path fun d => { d with locals := [], ended := true }⟩

/-- Changes one after the other. -/
abbrev Shelvings : Shelf → Shelf → Prop := Relation.ReflTransGen Shelving

/-- The ranges of every document are filed in order. -/
structure Shelf.Sorted (l : Shelf) : Prop where
  /-- There is one project. -/
  project : Graph.idsOf .project l.stream = [2]
  listed : Graph.idsOf .document l.stream = l.documents.values.map (·.id)
  ranges : l.documents.All fun _ d =>
    (Graph.rangesIn d.id l.stream).map Prod.fst = d.ranges.toList
  /-- A document lists its ranges when it is closed, if it has any. -/
  listings : l.documents.All fun _ d => Graph.listingsOf d.id l.stream =
    if d.ended = true ∧ d.ranges.isEmpty = false then [d.ranges.toList] else []
  /-- Nothing is listed below the project. -/
  pending : Graph.listingsOf 2 l.stream = []
  behind : ∀ id, Graph.NeverAfter (Graph.Body.ListsFrom id) (Graph.Body.RangeIn id) l.stream

/-! ## What a change keeps -/

/-- No document is lost, and each keeps its number. -/
theorem Shelving.sameIds {l l' : Shelf} (change : Shelving l l') :
    SameIds l.documents l'.documents := by
  cases change with
  | loose => exact .refl _
  | touched same => exact sameIds_modify _ _ fun d => (same d).1
  | began fresh => exact sameIds_insert fresh _
  | filed => exact sameIds_modify _ _ fun _ => rfl
  | closed => exact sameIds_modify _ _ fun _ => rfl

/-- The documents of the shelf are those of the stream. -/
theorem Shelf.Sorted.holds_iff {l : Shelf} (h : l.Sorted) {id : Id} :
    Graph.Holds l.stream .document id ↔ ∃ path d, l.documents.get? path = some d ∧ d.id = id := by
  rw [← Graph.mem_idsOf, h.listed, List.mem_map]
  constructor
  · rintro ⟨d, value, number⟩
    obtain ⟨path, document⟩ := Table.mem_values_iff.1 value
    exact ⟨path, d, document, number⟩
  · rintro ⟨path, d, document, number⟩
    exact ⟨d, Table.mem_values_iff.2 ⟨path, document⟩, number⟩

/-- Numbers tell documents apart. -/
theorem Shelf.Sorted.path_unique {l : Shelf} (h : l.Sorted) (ordered : Graph.Ordered l.stream)
    {path path' : String} {d d' : DocumentNode} (document : l.documents.get? path = some d)
    (document' : l.documents.get? path' = some d') (same : d.id = d'.id) : path = path' := by
  have distinct : (l.documents.entries.map fun entry => entry.2.id).Nodup := by
    have nodup := ordered.nodup_idsOf .document
    rw [h.listed] at nodup
    rwa [Table.values, List.map_map] at nodup
  exact congrArg Prod.fst (List.inj_on_of_nodup_map distinct (Table.mem_entries_iff.2 document)
    (Table.mem_entries_iff.2 document') same)

/-- No document is the project. -/
theorem Shelf.Sorted.id_ne {l : Shelf} (h : l.Sorted) (ordered : Graph.Ordered l.stream)
    {path : String} {d : DocumentNode} (document : l.documents.get? path = some d) : d.id ≠ 2 := by
  intro same
  have project : Graph.Holds l.stream .project 2 := Graph.mem_idsOf.1 (by simp [h.project])
  have here : Graph.Holds l.stream .document 2 := h.holds_iff.2 ⟨path, d, document, same⟩
  simpa using ordered.sort_unique project here

theorem listed_closing {d : DocumentNode} {added : List Element}
    (listed : added.map (·.body) = d.listing) :
    (d.ranges.isEmpty = true ∧ added = []) ∨
      (d.ranges.isEmpty = false ∧ ∃ k, added = [⟨k, .contains d.id d.ranges.toList⟩]) := by
  unfold DocumentNode.listing at listed
  cases empty : d.ranges.isEmpty with
  | true =>
      simp only [empty, if_true, List.map_eq_nil_iff] at listed
      exact .inl ⟨rfl, listed⟩
  | false =>
      simp only [empty, Bool.false_eq_true, if_false, List.map_eq_singleton_iff] at listed
      obtain ⟨⟨k, body⟩, rfl, same⟩ := listed
      exact .inr ⟨rfl, k, by simpa using same⟩

/-- The vertices that the edge of a closed document adds: none. -/
theorem idsOf_closing {d : DocumentNode} {added : List Element}
    (listed : added.map (·.body) = d.listing) (v : Graph.Vertex) : Graph.idsOf v added = [] := by
  refine Graph.idsOf_eq_nil fun e member => ?_
  rcases listed_closing listed with ⟨-, rfl⟩ | ⟨-, k, rfl⟩
  · simp at member
  · obtain rfl := List.mem_singleton.1 member
    simp [Graph.Body.vertex?]

theorem listingsOf_closing {d : DocumentNode} {added : List Element}
    (listed : added.map (·.body) = d.listing) (outV : Id) :
    Graph.listingsOf outV added =
      if d.id = outV ∧ d.ranges.isEmpty = false then [d.ranges.toList] else [] := by
  rcases listed_closing listed with ⟨empty, rfl⟩ | ⟨empty, k, rfl⟩
  · simp [empty, Graph.listingsOf]
  · by_cases own : d.id = outV <;> simp [empty, own, Graph.listingsOf]

theorem rangesIn_closing {d : DocumentNode} {added : List Element}
    (listed : added.map (·.body) = d.listing) (document : Id) :
    Graph.rangesIn document added = [] := by
  rcases listed_closing listed with ⟨empty, rfl⟩ | ⟨empty, k, rfl⟩ <;> rfl

theorem Shelving.project {l l' : Shelf} (change : Shelving l l')
    (h : Graph.idsOf .project l.stream = [2]) : Graph.idsOf .project l'.stream = [2] := by
  cases change with
  | loose loose => rw [Graph.idsOf_append, (Graph.idsOf_of_loose loose).2, h, List.append_nil]
  | touched same => exact h
  | began fresh number blank open_ =>
      rw [Graph.idsOf_append, h]
      rfl
  | filed document open_ home =>
      rw [Graph.idsOf_append, h]
      rfl
  | closed document open_ listed =>
      rw [Graph.idsOf_append, idsOf_closing listed, h, List.append_nil]

theorem Shelving.listed {l l' : Shelf} (change : Shelving l l')
    (h : Graph.idsOf .document l.stream = l.documents.values.map (·.id)) :
    Graph.idsOf .document l'.stream = l'.documents.values.map (·.id) := by
  cases change with
  | loose loose => rw [Graph.idsOf_append, (Graph.idsOf_of_loose loose).1, h, List.append_nil]
  | touched same => rw [Table.map_values_modify _ _ _ _ fun d _ => (same d).1, h]
  | began fresh number blank open_ =>
      rw [Table.values_insert_of_absent fresh, List.map_append, Graph.idsOf_append, h]
      rfl
  | @filed path d r id document open_ home =>
      have same := Table.map_values_modify l.documents path
        (fun d => { d with ranges := d.ranges.push id }) (·.id) fun _ _ => rfl
      refine Eq.trans ?_ same.symm
      rw [Graph.idsOf_append, h]
      exact List.append_nil _
  | @closed path d added document open_ listed =>
      have same := Table.map_values_modify l.documents path
        (fun d => { d with locals := [], ended := true }) (·.id) fun _ _ => rfl
      refine Eq.trans ?_ same.symm
      rw [Graph.idsOf_append, idsOf_closing listed, h, List.append_nil]

/-- What a document has filed are the ranges that the stream has of it. -/
theorem Shelving.ranges {l l' : Shelf} (change : Shelving l l') (h : l.Sorted)
    (ordered : Graph.Ordered l.stream) :
    l'.documents.All fun _ d => (Graph.rangesIn d.id l'.stream).map Prod.fst = d.ranges.toList := by
  cases change with
  | @loose extra loose =>
      refine h.ranges.imp fun _ d _ filed => ?_
      rw [Graph.rangesIn_append, Graph.rangesIn_of_loose loose, List.append_nil, filed]
  | touched same =>
      refine h.ranges.modify fun d _ filed => ?_
      rw [(same d).1, (same d).2.1, filed]
  | @began path d body fresh number blank open_ =>
      have others : ∀ outV, Graph.rangesIn outV (l.stream ++ [⟨d.id, .document body⟩]) =
          Graph.rangesIn outV l.stream := by
        intro outV
        rw [Graph.rangesIn_append]
        exact List.append_nil _
      refine Table.All.insert (h.ranges.imp fun _ e _ filed => by rw [others, filed]) ?_
      have beyond : (l.stream.length : Int) < d.id := by
        rw [number]
        exact Int.lt_succ _
      rw [others, ordered.rangesIn_of_lt beyond, blank]
      rfl
  | @filed path d r id document open_ home =>
      intro other e here
      rw [Graph.rangesIn_append, List.map_append]
      rw [Table.get?_modify] at here
      by_cases own : path = other
      · subst own
        rw [if_pos rfl, document] at here
        obtain rfl := Option.some.inj here
        simp [Graph.rangesIn, home, ← h.ranges path d document]
      · rw [if_neg own] at here
        have apart : r.document ≠ e.id := fun same =>
          own (h.path_unique ordered document here (home.symm.trans same))
        simp [Graph.rangesIn, apart, ← h.ranges other e here]
  | @closed path d added document open_ listed =>
      have others : ∀ outV, Graph.rangesIn outV (l.stream ++ added) =
          Graph.rangesIn outV l.stream := by
        intro outV
        rw [Graph.rangesIn_append, rangesIn_closing listed, List.append_nil]
      refine Table.All.modify (h.ranges.imp fun _ e _ filed => by rw [others, filed]) ?_
      exact fun e _ filed => filed

/-- A document lists its ranges when it is closed, and only then. -/
theorem Shelving.listings {l l' : Shelf} (change : Shelving l l') (h : l.Sorted)
    (ordered : Graph.Ordered l.stream) :
    l'.documents.All fun _ d => Graph.listingsOf d.id l'.stream =
      if d.ended = true ∧ d.ranges.isEmpty = false then [d.ranges.toList] else [] := by
  cases change with
  | @loose extra loose =>
      refine h.listings.imp fun _ d _ lists => ?_
      rw [Graph.listingsOf_append, Graph.listingsOf_of_loose loose, List.append_nil, lists]
  | touched same =>
      refine h.listings.modify fun d _ lists => ?_
      rw [(same d).1, (same d).2.1, (same d).2.2, lists]
  | @began path d body fresh number blank open_ =>
      have others : ∀ outV, Graph.listingsOf outV (l.stream ++ [⟨d.id, .document body⟩]) =
          Graph.listingsOf outV l.stream := by
        intro outV
        rw [Graph.listingsOf_append]
        exact List.append_nil _
      refine Table.All.insert (h.listings.imp fun _ e _ lists => by rw [others, lists]) ?_
      have beyond : (l.stream.length : Int) < d.id := by
        rw [number]
        exact Int.lt_succ _
      rw [others, ordered.listingsOf_of_lt beyond, open_]
      rfl
  | @filed path d r id document open_ home =>
      have others : ∀ outV, Graph.listingsOf outV (l.stream ++ [⟨id, .range r⟩]) =
          Graph.listingsOf outV l.stream := by
        intro outV
        rw [Graph.listingsOf_append]
        exact List.append_nil _
      refine Table.All.modify (h.listings.imp fun _ e _ lists => by rw [others, lists]) ?_
      intro e here lists
      obtain rfl := Option.some.inj (document.symm.trans here)
      simpa [open_] using lists
  | @closed path d added document open_ listed =>
      intro other e here
      rw [Graph.listingsOf_append, listingsOf_closing listed]
      rw [Table.get?_modify] at here
      by_cases own : path = other
      · subst own
        rw [if_pos rfl, document] at here
        obtain rfl := Option.some.inj here
        have before := h.listings path d document
        simp only [open_, Bool.false_eq_true, false_and, if_false] at before
        simp [before]
      · rw [if_neg own] at here
        have apart : d.id ≠ e.id := fun same => own (h.path_unique ordered document here same)
        rw [if_neg (fun both => apart both.1), List.append_nil]
        exact h.listings other e here

/-- Nothing is listed below the project as long as documents are closed. -/
theorem Shelving.pending {l l' : Shelf} (change : Shelving l l') (h : l.Sorted)
    (ordered : Graph.Ordered l.stream) : Graph.listingsOf 2 l'.stream = [] := by
  cases change with
  | loose loose =>
      rw [Graph.listingsOf_append, Graph.listingsOf_of_loose loose, h.pending, List.append_nil]
  | touched same => exact h.pending
  | began fresh number blank open_ =>
      rw [Graph.listingsOf_append, h.pending]
      rfl
  | filed document open_ home =>
      rw [Graph.listingsOf_append, h.pending]
      rfl
  | @closed path d added document open_ listed =>
      have apart : d.id ≠ 2 := h.id_ne ordered document
      rw [Graph.listingsOf_append, listingsOf_closing listed, if_neg (fun both => apart both.1),
        h.pending, List.append_nil]

/-- No range is filed in a document that is closed. -/
theorem Shelving.behind {l l' : Shelf} (change : Shelving l l') (h : l.Sorted) (id : Id) :
    Graph.NeverAfter (Graph.Body.ListsFrom id) (Graph.Body.RangeIn id) l'.stream := by
  cases change with
  | loose loose => exact (h.behind id).append (Graph.not_rangeIn_of_loose loose id)
  | touched same => exact h.behind id
  | began fresh number blank open_ =>
      refine (h.behind id).append fun e member has => ?_
      obtain rfl := List.mem_singleton.1 member
      exact has
  | @filed path d r k document open_ home =>
      by_cases own : d.id = id
      · subst own
        have none := h.listings path d document
        simp only [open_, Bool.false_eq_true, false_and, if_false] at none
        exact .append_of_none (Graph.not_listsFrom_of_nil none) (List.pairwise_singleton _ _)
      · refine (h.behind id).append fun e member has => own ?_
        obtain rfl := List.mem_singleton.1 member
        exact home.symm.trans has
  | @closed path d added document open_ listed =>
      refine (h.behind id).append fun e member has => ?_
      have body : e.body ∈ d.listing := listed ▸ List.mem_map_of_mem member
      unfold DocumentNode.listing at body
      split at body
      · simp at body
      · rw [List.mem_singleton.1 body] at has
        exact has

/-- **Every change keeps the documents sorted.** -/
theorem Shelving.sorted {l l' : Shelf} (change : Shelving l l') (h : l.Sorted)
    (ordered : Graph.Ordered l.stream) : l'.Sorted :=
  ⟨change.project h.project, change.listed h.listed, change.ranges h ordered,
    change.listings h ordered, change.pending h ordered, change.behind h⟩

/-- A change only adds to the stream. -/
theorem Shelving.grows {l l' : Shelf} (change : Shelving l l') :
    ∃ more, l'.stream = l.stream ++ more := by
  cases change with
  | loose => exact ⟨_, rfl⟩
  | touched => exact ⟨[], (List.append_nil _).symm⟩
  | began => exact ⟨_, rfl⟩
  | filed => exact ⟨_, rfl⟩
  | closed => exact ⟨_, rfl⟩

theorem Shelvings.sorted {l l' : Shelf} (changes : Shelvings l l') (h : l.Sorted)
    (ordered : Graph.Ordered l'.stream) :
    l'.Sorted ∧ SameIds l.documents l'.documents ∧ ∃ more, l'.stream = l.stream ++ more := by
  induction changes with
  | refl => exact ⟨h, .refl _, [], (List.append_nil _).symm⟩
  | tail _ last ih =>
      obtain ⟨more, stream⟩ := last.grows
      have before := Graph.Ordered.of_append (stream ▸ ordered)
      obtain ⟨sorted, same, earlier, stream'⟩ := ih before
      refine ⟨last.sorted sorted before, fun path d document => ?_, earlier ++ more, ?_⟩
      · obtain ⟨d₁, document₁, number₁⟩ := same path d document
        obtain ⟨d₂, document₂, number₂⟩ := last.sameIds path d₁ document₁
        exact ⟨d₂, document₂, number₂.trans number₁⟩
      · rw [stream, stream', List.append_assoc]

/-! ## Steps change the shelf -/

section Steps

variable {μ ω : Type} {c : Context μ ω} {view : ω → List Element}

/-- The shelf of a session. -/
def State.shelf (view : ω → List Element) (s : State μ ω) : Shelf := ⟨view s.output, s.documents⟩

theorem shelves_began (records : c.sink.Records view) {s : State μ ω} {path : String}
    (traced : s.Traced view) (fresh : s.documents.get? path = none)
    (ok : (s.began c path).failure = none) :
    Shelvings (s.shelf view) ((s.began c path).shelf view) := by
  have seen : view (s.began c path).output = _ := view_emitted records ok
  rw [State.shelf, State.shelf, seen]
  have number : (s.newDocument c path).id = ((view s.output).length + 1 : Int) := by
    rw [traced.count]
    rfl
  exact .single (.began (l := ⟨view s.output, s.documents⟩) (d := s.newDocument c path) fresh
    number rfl rfl)

/-- A range is emitted and filed. -/
theorem shelves_range (records : c.sink.Records view) {s : State μ ω} {path : String}
    {d : DocumentNode} {r : Graph.Range} (document : s.documents.get? path = some d)
    (open_ : d.ended = false) (home : r.document = d.id)
    (ok : (s.emitted c (.range r)).failure = none) :
    Shelvings (s.shelf view) ⟨view (s.emitted c (.range r)).output,
      s.documents.modify path fun d => { d with ranges := d.ranges.push (s.lastId + 1) }⟩ := by
  rw [State.shelf, view_emitted records ok]
  exact .single (.filed document open_ home)

/-- An element that concerns no document. -/
theorem shelves_loose (records : c.sink.Records view) {s : State μ ω} {body : Graph.Body}
    (ok : (s.emitted c body).failure = none) (loose : body.Loose) :
    Shelvings (s.shelf view) ((s.emitted c body).shelf view) := by
  rw [State.shelf, State.shelf, view_emitted records ok]
  exact .single (.loose (by simpa using loose))

theorem Detail.shelves (records : c.sink.Records view) {s s' : State μ ω} (step : Detail c s s')
    (traced : s.Traced view) (ok : s'.failure = none) :
    Shelvings (s.shelf view) (s'.shelf view) := by
  cases step with
  | asked | counted | sited | awaited => exact .refl
  | began fresh outside => exact shelves_began records traced fresh ok
  | defined node open_ document writable => exact shelves_range records document writable rfl ok
  | @attached key n m node open_ new =>
      have first : (s.emitted c (.moniker m)).failure = none := failure_none_of_emitted ok
      exact (shelves_loose records first trivial).trans (shelves_loose records ok trivial)
  | @hovered key n contents node =>
      have first : (s.emitted c (.hover contents)).failure = none := failure_none_of_emitted ok
      exact (shelves_loose records first trivial).trans (shelves_loose records ok trivial)
  | joined => exact shelves_loose records ok trivial
  | confined => exact .single (.touched fun _ => ⟨rfl, rfl, rfl⟩)

theorem Growth.shelves (records : c.sink.Records view) {s s' : State μ ω} (step : Growth c s s')
    (ok : s'.failure = none) : Shelvings (s.shelf view) (s'.shelf view) := by
  cases step with
  | @enrolled sym use variant declarations name namer _ _ memory fresh =>
      have ok : (s.emitted c (.resultSet {
          symbol := name.render, name := sym.name, variant := variant.name,
          isLocal := name.isLocal })).failure = none := ok
      exact shelves_loose records ok trivial
  | based | composed => exact .refl

theorem Usage.shelves (records : c.sink.Records view) {s s' : State μ ω} (step : Usage c s s')
    (ok : s'.failure = none) : Shelvings (s.shelf view) (s'.shelf view) := by
  cases step with
  | marked node open_ document writable => exact shelves_range records document writable rfl ok
  | @referred key path n d name node open_ document writable =>
      obtain ⟨symbols, same⟩ := State.foldl_forwarded_eq path d.id (s.lastId + 1)
        (n.forwards key) (s.referred c key path n d name)
      rw [same] at ok ⊢
      exact shelves_range records document writable rfl ok

/-- What is emitted when a document is closed. -/
theorem view_documentEnded (records : c.sink.Records view) {s : State μ ω} {path : String}
    {d : DocumentNode} (ok : (s.documentEnded c path d).failure = none) :
    ∃ added, view (s.documentEnded c path d).output = view s.output ++ added ∧
      added.map (·.body) = d.listing := by
  unfold State.documentEnded at ok ⊢
  unfold DocumentNode.listing
  cases empty : d.ranges.isEmpty with
  | true => exact ⟨[], by simp, by simp⟩
  | false =>
      simp only [empty, Bool.false_eq_true, if_false] at ok ⊢
      have taken : (s.emitted c (.contains d.id d.ranges.toList)).failure = none := ok
      exact ⟨[⟨s.lastId + 1, _⟩], view_emitted records taken, rfl⟩

theorem Ending.shelves (records : c.sink.Records view) {s s' : State μ ω} (step : Ending c s s')
    (ok : s'.failure = none) : Shelvings (s.shelf view) (s'.shelf view) := by
  cases step with
  | @symbol key n node open_ =>
      have taken : (s.emittedAll c (n.items.map .item)).failure = none := ok
      obtain ⟨added, seen, items⟩ := view_emittedAll records taken
      have loose : ∀ e ∈ added, e.body.Loose := by
        intro e member
        have item : e.body ∈ n.items.map Graph.Body.item := items ▸ List.mem_map_of_mem member
        obtain ⟨i, -, body⟩ := List.mem_map.1 item
        rw [← body]
        trivial
      have seen : view (s.symbolEnded c key n).output = _ := seen
      have same : (s.symbolEnded c key n).documents = s.documents := documents_emittedAll s _
      rw [State.shelf, State.shelf, seen, same]
      exact .single (.loose loose)
  | @document path d document writable frozen =>
      obtain ⟨added, seen, listed⟩ := view_documentEnded records ok
      obtain ⟨_, _, _, shape⟩ := s.documentEnded_eq (c := c) path d
      have documents : (s.documentEnded c path d).documents =
          s.documents.modify path fun d => { d with locals := [], ended := true } := by
        rw [shape]
      rw [State.shelf, State.shelf, seen, documents]
      exact .single (.closed document writable listed)

/-- **A step changes the shelf.** -/
theorem Step.shelves (records : c.sink.Records view) {s s' : State μ ω} (step : Step c s s')
    (traced : s.Traced view) (ok : s'.failure = none) :
    Shelvings (s.shelf view) (s'.shelf view) := by
  cases step with
  | detail step => exact step.shelves records traced ok
  | growth step => exact step.shelves records ok
  | usage step => exact step.shelves records ok
  | ending step => exact step.shelves records ok
  | opened fresh => exact shelves_began records traced fresh ok
  | turned | passed => exact .refl

theorem Steps.shelves (records : c.sink.Records view) {s s' : State μ ω} (steps : Steps c s s')
    (traced : s.Traced view) (ok : s'.failure = none) :
    Shelvings (s.shelf view) (s'.shelf view) := by
  induction steps with
  | refl => exact .refl
  | tail before last ih =>
      have ok' := last.failure_none ok
      exact (ih ok').trans (last.shelves records (Steps.traced records before traced ok') ok)

/-- Sorted documents stay sorted, under their numbers, and the stream grows. -/
theorem Steps.sorted (records : c.sink.Records view) {s s' : State μ ω} (steps : Steps c s s')
    (traced : s.Traced view) (h : (s.shelf view).Sorted) (ok : s'.failure = none) :
    (s'.shelf view).Sorted ∧ SameIds s.documents s'.documents ∧
      ∃ more, view s'.output = view s.output ++ more :=
  Shelvings.sorted (steps.shelves records traced ok) h
    (steps.traced records traced ok).wellFormed.ordered

theorem sorted_opened (records : c.sink.Records view) {memory : μ} {output : ω}
    (empty : view output = [])
    (ok : ((State.start c memory output).opened c).failure = none) :
    (((State.start c memory output).opened c).shelf view).Sorted := by
  have seen := view_opened records empty ok
  rw [State.shelf, seen]
  refine ⟨rfl, rfl, Table.all_empty _, Table.all_empty _, rfl, fun id => ?_⟩
  refine Graph.neverAfter_of_none fun e member has => ?_
  simp only [List.mem_cons, List.not_mem_nil, or_false] at member
  rcases member with rfl | rfl <;> exact has

end Steps

end Session
end SymbolAtlas
