/-
# SymbolAtlas.Proofs.Graph.WellFormed -- streams whose links lead back

A stream of elements can be read in one pass if every ID that an element mentions
belongs to a vertex of the right sort that came before it.  `Body.LinkedIn` says what
the right sort is for each kind of element, `Ordered` asks it of every element of a
stream together with the numbering from 1, and `WellFormed` adds how a stream begins.

`Ordered.snoc` is the step: a stream stays ordered when the next element is linked in
what is there.  `Sink.Records` ties a sink to the stream it took.
-/
import SymbolAtlas.Graph

set_option autoImplicit false

namespace SymbolAtlas.Graph

/-- What an edge may lead from or to. -/
inductive Vertex where
  | project
  | document
  | resultSet
  | range
  | moniker
  | hover
deriving DecidableEq, Repr

/-- The sort of vertex that an element is, if an edge may lead to it. -/
def Body.vertex? : Body → Option Vertex
  | .project _ => some .project
  | .document _ => some .document
  | .resultSet _ => some .resultSet
  | .range _ => some .range
  | .moniker _ => some .moniker
  | .hover _ => some .hover
  | _ => none

/-- The stream has a vertex of this sort with this ID. -/
def Holds (stream : List Element) (v : Vertex) (id : Id) : Prop :=
  ∃ e ∈ stream, e.id = id ∧ e.body.vertex? = some v

/-- Every ID that an element mentions belongs to a vertex of the right sort. -/
def Body.LinkedIn (stream : List Element) : Body → Prop
  | .range r => Holds stream .document r.document ∧ Holds stream .resultSet r.resultSet
  | .contains outV inVs =>
      (Holds stream .project outV ∧ ∀ id ∈ inVs, Holds stream .document id) ∨
        (Holds stream .document outV ∧ ∀ id ∈ inVs, Holds stream .range id)
  | .item i =>
      Holds stream .resultSet i.outV ∧ (∀ id ∈ i.inVs, Holds stream .range id) ∧
        Holds stream .document i.document
  | .next outV inV => Holds stream .resultSet outV ∧ Holds stream .resultSet inV
  | .monikerEdge outV inV => Holds stream .resultSet outV ∧ Holds stream .moniker inV
  | .hoverEdge outV inV => Holds stream .resultSet outV ∧ Holds stream .hover inV
  | .metadata _ | .project _ | .document _ | .resultSet _ | .moniker _ | .hover _ => True
  | .foreign _ _ => False

/-- Elements are numbered from 1 and linked in what came before them. -/
def Ordered (stream : List Element) : Prop :=
  ∀ before e after, stream = before ++ e :: after →
    e.id = (before.length + 1 : Int) ∧ e.body.LinkedIn before

/-- An ordered stream that begins with the metadata and the project. -/
structure WellFormed (stream : List Element) : Prop where
  ordered : Ordered stream
  begins : ∃ m p rest, stream = ⟨1, .metadata m⟩ :: ⟨2, .project p⟩ :: rest

/-! ## Streams grow -/

theorem holds_snoc {stream : List Element} {v : Vertex} {id : Id} {body : Body}
    (sort : body.vertex? = some v) : Holds (stream ++ [⟨id, body⟩]) v id :=
  ⟨⟨id, body⟩, by simp, rfl, sort⟩

theorem ordered_nil : Ordered [] := by
  intro before e after equal
  simp at equal

/-- One more element, linked in what is there, keeps a stream ordered. -/
theorem Ordered.snoc {stream : List Element} (h : Ordered stream) {e : Element}
    (number : e.id = (stream.length + 1 : Int)) (linked : e.body.LinkedIn stream) :
    Ordered (stream ++ [e]) := by
  intro before e' after equal
  rcases List.eq_nil_or_concat after with rfl | ⟨after, last, rfl⟩
  · obtain ⟨rfl, same⟩ := List.append_inj' equal rfl
    obtain rfl := (List.cons.inj same).1
    exact ⟨number, linked⟩
  · rw [List.concat_eq_append, ← List.cons_append, ← List.append_assoc] at equal
    obtain ⟨split, -⟩ := List.append_inj' equal rfl
    exact h before e' after split

theorem Ordered.of_append {stream more : List Element} (h : Ordered (stream ++ more)) :
    Ordered stream := by
  intro before e after split
  exact h before e (after ++ more) (by simp [split])

theorem WellFormed.snoc {stream : List Element} (h : WellFormed stream) {e : Element}
    (number : e.id = (stream.length + 1 : Int)) (linked : e.body.LinkedIn stream) :
    WellFormed (stream ++ [e]) := by
  obtain ⟨m, p, rest, begins⟩ := h.begins
  exact ⟨h.ordered.snoc number linked, m, p, rest ++ [e], by simp [begins]⟩

/-- The project of a well-formed stream has the number 2. -/
theorem WellFormed.project {stream : List Element} (h : WellFormed stream) :
    Holds stream .project 2 := by
  obtain ⟨m, p, rest, rfl⟩ := h.begins
  exact ⟨⟨2, .project p⟩, by simp, rfl, rfl⟩

/-- The element with a number is the one at that place. -/
theorem Ordered.unique {stream : List Element} (h : Ordered stream) {e e' : Element}
    (member : e ∈ stream) (member' : e' ∈ stream) (same : e.id = e'.id) : e = e' := by
  obtain ⟨before, after, split⟩ := List.append_of_mem member
  obtain ⟨before', after', split'⟩ := List.append_of_mem member'
  have numbers : (before.length : Int) + 1 = before'.length + 1 :=
    (h _ _ _ split).1.symm.trans (same.trans (h _ _ _ split').1)
  obtain ⟨-, tails⟩ := List.append_inj (split.symm.trans split') (by omega)
  exact (List.cons.inj tails).1

/-- What an edge is linked in, it stays linked in. -/
theorem Body.LinkedIn.mono {stream stream' : List Element} {body : Body}
    (h : body.LinkedIn stream) (more : stream ⊆ stream') : body.LinkedIn stream' := by
  have holds : ∀ {v id}, Holds stream v id → Holds stream' v id := by
    rintro v id ⟨e, member, rest⟩
    exact ⟨e, more member, rest⟩
  cases body with
  | range r => exact ⟨holds h.1, holds h.2⟩
  | contains outV inVs =>
      rcases h with ⟨from_, to_⟩ | ⟨from_, to_⟩
      · exact .inl ⟨holds from_, fun id member => holds (to_ id member)⟩
      · exact .inr ⟨holds from_, fun id member => holds (to_ id member)⟩
  | item i => exact ⟨holds h.1, fun id member => holds (h.2.1 id member), holds h.2.2⟩
  | next | monikerEdge | hoverEdge => exact ⟨holds h.1, holds h.2⟩
  | metadata | project | document | resultSet | moniker | hover => trivial
  | foreign => exact h

theorem Ordered.linked {stream : List Element} (h : Ordered stream) {e : Element}
    (member : e ∈ stream) : e.body.LinkedIn stream := by
  obtain ⟨before, after, split⟩ := List.append_of_mem member
  exact (h before e after split).2.mono (by simp [split])

/-! ## Reading a stream -/

/-- The IDs of all vertices of one sort, in the order of the stream. -/
def idsOf (v : Vertex) (stream : List Element) : List Id :=
  (stream.filter (·.body.vertex? = some v)).map (·.id)

/-- The item edges that lead from a result set, in the order of the stream. -/
def itemsFrom (resultSet : Id) (stream : List Element) : List Item :=
  stream.filterMap fun e => match e.body with
    | .item i => if i.outV = resultSet then some i else none
    | _ => none

/-- The ranges in a document with their numbers, in the order of the stream. -/
def rangesIn (document : Id) (stream : List Element) : List (Id × Range) :=
  stream.filterMap fun e => match e.body with
    | .range r => if r.document = document then some (e.id, r) else none
    | _ => none

/-- What the edges list that lead from a document or a project to its parts. -/
def listingsOf (outV : Id) (stream : List Element) : List (List Id) :=
  stream.filterMap fun e => match e.body with
    | .contains v inVs => if v = outV then some inVs else none
    | _ => none

@[simp] theorem idsOf_append (v : Vertex) (stream more : List Element) :
    idsOf v (stream ++ more) = idsOf v stream ++ idsOf v more := by
  simp [idsOf]

@[simp] theorem itemsFrom_append (resultSet : Id) (stream more : List Element) :
    itemsFrom resultSet (stream ++ more) =
      itemsFrom resultSet stream ++ itemsFrom resultSet more :=
  List.filterMap_append

@[simp] theorem rangesIn_append (document : Id) (stream more : List Element) :
    rangesIn document (stream ++ more) = rangesIn document stream ++ rangesIn document more :=
  List.filterMap_append

@[simp] theorem listingsOf_append (outV : Id) (stream more : List Element) :
    listingsOf outV (stream ++ more) = listingsOf outV stream ++ listingsOf outV more :=
  List.filterMap_append

theorem mem_idsOf {v : Vertex} {stream : List Element} {id : Id} :
    id ∈ idsOf v stream ↔ Holds stream v id := by
  simp only [idsOf, Holds, List.mem_map, List.mem_filter, decide_eq_true_eq]
  constructor
  · rintro ⟨e, ⟨member, sort⟩, number⟩
    exact ⟨e, member, number, sort⟩
  · rintro ⟨e, member, number, sort⟩
    exact ⟨e, ⟨member, sort⟩, number⟩

theorem idsOf_eq_nil {v : Vertex} {stream : List Element}
    (other : ∀ e ∈ stream, e.body.vertex? ≠ some v) : idsOf v stream = [] := by
  simpa [idsOf] using other

theorem mem_itemsFrom {resultSet : Id} {stream : List Element} {i : Item} :
    i ∈ itemsFrom resultSet stream ↔
      i.outV = resultSet ∧ ∃ id, (⟨id, .item i⟩ : Element) ∈ stream := by
  simp only [itemsFrom, List.mem_filterMap]
  constructor
  · rintro ⟨⟨id, body⟩, member, found⟩
    cases body <;> simp only [reduceCtorEq, Option.ite_none_right_eq_some, Option.some.injEq]
      at found
    obtain ⟨from_, rfl⟩ := found
    exact ⟨from_, id, member⟩
  · rintro ⟨rfl, id, member⟩
    exact ⟨_, member, by simp⟩

theorem mem_rangesIn {document : Id} {stream : List Element} {entry : Id × Range} :
    entry ∈ rangesIn document stream ↔
      entry.2.document = document ∧ (⟨entry.1, .range entry.2⟩ : Element) ∈ stream := by
  simp only [rangesIn, List.mem_filterMap]
  constructor
  · rintro ⟨⟨id, body⟩, member, found⟩
    cases body <;> simp only [reduceCtorEq, Option.ite_none_right_eq_some, Option.some.injEq]
      at found
    obtain ⟨inside, rfl⟩ := found
    exact ⟨inside, member⟩
  · rintro ⟨rfl, member⟩
    exact ⟨_, member, by simp⟩

theorem mem_listingsOf {outV : Id} {stream : List Element} {inVs : List Id} :
    inVs ∈ listingsOf outV stream ↔ ∃ id, (⟨id, .contains outV inVs⟩ : Element) ∈ stream := by
  simp only [listingsOf, List.mem_filterMap]
  constructor
  · rintro ⟨⟨id, body⟩, member, found⟩
    cases body <;> simp only [reduceCtorEq, Option.ite_none_right_eq_some, Option.some.injEq]
      at found
    obtain ⟨rfl, rfl⟩ := found
    exact ⟨id, member⟩
  · rintro ⟨id, member⟩
    exact ⟨_, member, by simp⟩

/-- The item edges among elements that are all item edges. -/
theorem itemsFrom_of_bodies {added : List Element} {items : List Item}
    (bodies : added.map (·.body) = items.map .item) (resultSet : Id) :
    itemsFrom resultSet added = items.filter (·.outV = resultSet) := by
  induction added generalizing items with
  | nil =>
      obtain rfl : items = [] := by simpa using bodies.symm
      rfl
  | cons e added ih =>
      cases items with
      | nil => simp at bodies
      | cons i items =>
          simp only [List.map_cons, List.cons.injEq] at bodies
          have rest := ih bodies.2
          simp only [itemsFrom] at rest
          simp only [itemsFrom, List.filterMap_cons, bodies.1, List.filter_cons, rest]
          by_cases from_ : i.outV = resultSet <;> simp [from_]

/-- No number is given beyond the length of the stream. -/
theorem Ordered.id_le {stream : List Element} (h : Ordered stream) {e : Element}
    (member : e ∈ stream) : e.id ≤ (stream.length : Int) := by
  obtain ⟨before, after, rfl⟩ := List.append_of_mem member
  rw [(h before e after rfl).1, List.length_append, List.length_cons]
  show (before.length + 1 : Int) ≤ ((before.length + (after.length + 1) : Nat) : Int)
  omega

/-- The numbers of a stream are 1, 2, 3 and so on. -/
theorem Ordered.ids {stream : List Element} (h : Ordered stream) :
    stream.map (·.id) = (List.range stream.length).map fun k => ((k + 1 : Nat) : Int) := by
  refine List.ext_getElem (by simp) fun k here _ => ?_
  have inside : k < stream.length := by simpa using here
  have split : stream = stream.take k ++ stream[k] :: stream.drop (k + 1) := by
    rw [List.getElem_cons_drop, List.take_append_drop]
  have number := (h _ _ _ split).1
  rw [List.length_take_of_le (by omega)] at number
  simpa using number

theorem Ordered.distinct {stream : List Element} (h : Ordered stream) :
    (stream.map (·.id)).Nodup := by
  rw [h.ids, List.Nodup, List.pairwise_map]
  exact List.nodup_range.imp fun different same =>
    different (Nat.succ.inj (Int.ofNat.inj same))

theorem Ordered.nodup_idsOf {stream : List Element} (h : Ordered stream) (v : Vertex) :
    (idsOf v stream).Nodup :=
  h.distinct.sublist (List.filter_sublist.map _)

theorem Ordered.holds_le {stream : List Element} (h : Ordered stream) {v : Vertex} {id : Id}
    (holds : Holds stream v id) : id ≤ (stream.length : Int) := by
  obtain ⟨e, member, rfl, -⟩ := holds
  exact h.id_le member

/-- No item edge leads from a number that is not given yet. -/
theorem Ordered.itemsFrom_of_lt {stream : List Element} (h : Ordered stream) {resultSet : Id}
    (beyond : (stream.length : Int) < resultSet) : itemsFrom resultSet stream = [] := by
  refine List.eq_nil_iff_forall_not_mem.2 fun i member => ?_
  obtain ⟨rfl, id, inside⟩ := mem_itemsFrom.1 member
  exact absurd beyond (Int.not_lt.2 (h.holds_le (h.linked inside).1))

/-- No range is in a document whose number is not given yet. -/
theorem Ordered.rangesIn_of_lt {stream : List Element} (h : Ordered stream) {document : Id}
    (beyond : (stream.length : Int) < document) : rangesIn document stream = [] := by
  refine List.eq_nil_iff_forall_not_mem.2 fun entry member => ?_
  obtain ⟨rfl, inside⟩ := mem_rangesIn.1 member
  exact absurd beyond (Int.not_lt.2 (h.holds_le (h.linked inside).1))

/-- Nothing is listed under a number that is not given yet. -/
theorem Ordered.listingsOf_of_lt {stream : List Element} (h : Ordered stream) {outV : Id}
    (beyond : (stream.length : Int) < outV) : listingsOf outV stream = [] := by
  refine List.eq_nil_iff_forall_not_mem.2 fun inVs member => ?_
  obtain ⟨id, inside⟩ := mem_listingsOf.1 member
  rcases h.linked inside with ⟨project, -⟩ | ⟨document, -⟩
  · exact absurd beyond (Int.not_lt.2 (h.holds_le project))
  · exact absurd beyond (Int.not_lt.2 (h.holds_le document))

/-- A number belongs to one sort of vertex. -/
theorem Ordered.sort_unique {stream : List Element} (h : Ordered stream) {v w : Vertex} {id : Id}
    (first : Holds stream v id) (second : Holds stream w id) : v = w := by
  obtain ⟨e, member, number, sort⟩ := first
  obtain ⟨e', member', number', sort'⟩ := second
  obtain rfl := h.unique member member' (number.trans number'.symm)
  exact Option.some.inj (sort.symm.trans sort')

/-! ## Sinks that remember -/

/-- `view` reads back the elements that the sink took, in their order. -/
def Sink.Records {ω : Type} (sink : Sink ω) (view : ω → List Element) : Prop :=
  ∀ e before after, sink e before = .ok after → view after = view before ++ [e]

/-- What is collected beside another sink is what both took. -/
theorem records_both {ω : Type} (sink : Sink ω) :
    (sink.both Sink.collect).Records (·.2.toList) := by
  rintro e ⟨a, kept⟩ after taken
  unfold Sink.both at taken
  cases first : sink e a with
  | error reason => simp [first, bind, Except.bind] at taken
  | ok a' =>
      simp only [first, bind, Except.bind, Sink.collect, pure, Except.pure, Except.ok.injEq]
        at taken
      subst taken
      exact Array.toList_push

end SymbolAtlas.Graph
