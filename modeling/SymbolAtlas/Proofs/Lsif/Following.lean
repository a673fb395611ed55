/-
# SymbolAtlas.Proofs.Lsif.Following -- a dump says what its graph says

An item edge of the graph becomes one edge of the dump or two, through results that the graph does
not have, and packages become vertices.  Who reads the dump follows edges: from a result set to a
result and on to what is listed there (`follow`), from a moniker to its package.  That way he finds
what the graph lists, in its order and under the numbers of the dump (`Dumped.follow`), and the
other edges are those of the graph and one more for each range (`Dumped.edges_of_stream`).
-/
import Mathlib.Data.List.Nodup
import SymbolAtlas.Proofs.Lsif.Numbers

set_option autoImplicit false

namespace SymbolAtlas.Lsif

open SymbolAtlas.Graph (Id Element Body)

/-! ## Following lines -/

/-- What an item edge of the dump lists. -/
structure Listing where
  inVs : List LineId
  document : LineId
  property : String
deriving DecidableEq, Repr

/-- What item edges list, and for which result. -/
def items (lines : List Line) : List (LineId × Listing) :=
  lines.filterMap fun l => match l with
    | .item _ outV inVs document property => some (outV, { inVs, document, property })
    | _ => none

/-- Where edges of one kind lead from a vertex. -/
def edgesFrom (link : Link) (v : LineId) (lines : List Line) : List LineId :=
  ((edges link lines).filter (·.1 = v)).map (·.2)

/-- What is listed for a result. -/
def listingsOf (r : LineId) (lines : List Line) : List Listing :=
  ((items lines).filter (·.1 = r)).map (·.2)

/-- What is listed behind the edges of one kind. -/
def follow (link : Link) (v : LineId) (lines : List Line) : List Listing :=
  (edgesFrom link v lines).flatMap (listingsOf · lines)

/-- The vertices with a number. -/
def payloadsAt (v : LineId) (lines : List Line) : List Vertex :=
  lines.filterMap fun l => match l with
    | .vertex id payload => if id = v then some payload else none
    | _ => none

@[simp] theorem items_append (lines more : List Line) :
    items (lines ++ more) = items lines ++ items more := List.filterMap_append

/-- A number of a dump has one vertex at most. -/
theorem payloadsAt_of_mem {lines : List Line} (distinct : (lines.map (·.id)).Nodup) {k : LineId}
    {payload : Vertex} (member : .vertex k payload ∈ lines) : payloadsAt k lines = [payload] := by
  obtain ⟨before, after, rfl⟩ := List.append_of_mem member
  rw [List.map_append, List.map_cons, List.nodup_append, List.nodup_cons] at distinct
  obtain ⟨-, ⟨later, -⟩, apart⟩ := distinct
  have none : ∀ part : List Line, k ∉ part.map (·.id) → payloadsAt k part = [] := by
    intro part absent
    refine List.filterMap_eq_nil_iff.2 fun l inside => ?_
    cases l with
    | vertex id =>
        refine if_neg ?_
        rintro rfl
        exact absent (List.mem_map_of_mem inside)
    | _ => rfl
  have first := none before fun inside => apart _ inside _ List.mem_cons_self rfl
  have last := none after later
  unfold payloadsAt at first last ⊢
  rw [List.filterMap_append, List.filterMap_cons, first, last]
  simp

/-- Only one element of a list gives what is looked for. -/
theorem filter_filterMap_of_only {α β : Type} {xs : List α} (distinct : xs.Nodup) {f : α → Option β}
    {P : β → Bool} {x : α} (member : x ∈ xs)
    (only : ∀ x' ∈ xs, ∀ y, f x' = some y → P y = true → x' = x) :
    (xs.filterMap f).filter P = ((f x).filter P).toList := by
  obtain ⟨before, after, rfl⟩ := List.append_of_mem member
  rw [List.nodup_append, List.nodup_cons] at distinct
  obtain ⟨-, ⟨later, -⟩, apart⟩ := distinct
  have none : ∀ part ⊆ before ++ x :: after, x ∉ part → (part.filterMap f).filter P = [] := by
    intro part inside absent
    refine List.filter_eq_nil_iff.2 fun y found right => absent ?_
    obtain ⟨x', member, given⟩ := List.mem_filterMap.1 found
    exact only x' (inside member) y given right ▸ member
  rw [List.filterMap_append, List.filterMap_cons, List.filter_append,
    none before (List.subset_append_left _ _) fun inside => apart _ inside _ List.mem_cons_self rfl]
  have last := none after (fun y inside => by simp [inside]) later
  cases given : f x with
  | none => simp [last]
  | some y => cases right : P y <;> simp [right, last, Option.filter]

/-! ## What the graph says -/

/-- The tag under which a result lists the ranges of an item edge, if it does.  Definitions stand
under both results. -/
def tag? : Request → Graph.Item → Option String
  | .definition, i => if i.property = .definitions then some "" else none
  | .references, i => some i.property.name

/-- What is listed for an item edge, under the numbers of a dump. -/
def listing (number : Id → LineId) (i : Graph.Item) (property : String) : Listing where
  inVs := i.inVs.map number
  document := number i.document
  property := property

/-- What is listed for an element, and for which results. -/
def listed (N : Numbering) (e : Element) : List (LineId × Listing) :=
  match e.body with
  | .item i => [Request.definition, .references].filterMap fun q =>
      (tag? q i).map fun tag => (N.resultAt q i.outV, listing N.number i tag)
  | _ => []

/-- The edge of one kind that an element stands for: an edge of the graph, the edge of a range to
its symbol or that of a moniker to its package. -/
def joined (N : Numbering) : Link → Element → Option (LineId × LineId)
  | .next, ⟨g, .range r⟩ => some (N.number g, N.number r.resultSet)
  | .next, ⟨_, .next outV inV⟩ => some (N.number outV, N.number inV)
  | .moniker, ⟨_, .monikerEdge outV inV⟩ => some (N.number outV, N.number inV)
  | .hover, ⟨_, .hoverEdge outV inV⟩ => some (N.number outV, N.number inV)
  | .packageInformation, ⟨g, body⟩ =>
      (package? body).map fun p => (N.number g, N.packageAt p)
  | _, _ => none

variable {N n n' : Numbering} {stream : List Element} {e : Element} {lines new made : List Line}
  {q : Request}

/-! ## What the dump says -/

/-- What comes with a result is an edge to it. -/
theorem Provides.quiet {resultSet : Id} (h : Provides N n q resultSet made n') {link : Link}
    (other : ∀ q : Request, link ≠ q.link) : edges link made = [] := by
  cases h with
  | known => rfl
  | made => simp [edges, (other q).symm]

theorem Packs.quiet {p : PackageInfo} (h : Packs N n p made n') (link : Link) :
    edges link made = [] := by
  cases h with
  | known | made => rfl

/-- An element that is neither a range nor has a package stands for no edge, if it is a vertex. -/
theorem joined_of_payload? {body : Body} {payload : Vertex} (shown : payload? body = some payload)
    (plain : ∀ r, body ≠ .range r) (bare : package? body = none) (g : Id) (link : Link) :
    joined N link ⟨g, body⟩ = none := by
  cases link with
  | packageInformation =>
      show (package? body).map _ = none
      rw [bare]
      rfl
  | _ => cases body <;> first | rfl | exact absurd rfl (plain _) | cases shown

/-- **The edges that an element adds**, those to results apart. -/
theorem Writes.edges (h : Writes N n e new n') {link : Link} (other : ∀ q : Request, link ≠ q.link) :
    edges link new = (joined N link e).toList := by
  cases h with
  | vertex shown plain bare =>
      rw [joined_of_payload? shown plain bare]
      rfl
  | range => cases link <;> rfl
  | @packed g m made _ named _ packs =>
      have own : package? (.moniker m) = some m.package := if_neg named
      have quiet := packs.quiet link
      rw [List.cons_append, ← List.singleton_append, edges_append, edges_append, quiet]
      cases link with
      | packageInformation =>
          show _ = ((package? (.moniker m)).map fun p => (N.number g, N.packageAt p)).toList
          rw [own]
          rfl
      | _ => rfl
  | @link _ body _ _ _ joins => cases body <;> cases joins <;> cases link <;> rfl
  | contains => cases link <;> rfl
  | definitions _ references definitions =>
      rw [edges_append, edges_append, references.quiet other, definitions.quiet other]
      cases link <;> rfl
  | references _ references =>
      rw [edges_append, references.quiet other]
      cases link <;> rfl

theorem Provides.items {resultSet : Id} (h : Provides N n q resultSet made n') : items made = [] := by
  cases h with
  | known | made => rfl

/-- **What an element lists**, and for which results. -/
theorem Writes.items (h : Writes N n e new n') : items new = listed N e := by
  cases h with
  | @vertex _ body _ shown => cases body <;> cases shown <;> rfl
  | range | contains => rfl
  | packed _ _ packs =>
      cases packs with
      | known | made => rfl
  | @link _ body _ _ _ joins => cases body <;> cases joins <;> rfl
  | definitions definitions_ references definitions =>
      rw [items_append, items_append, references.items, definitions.items]
      simp [Lsif.items, listed, tag?, definitions_, listing]
  | references other references =>
      rw [items_append, references.items]
      simp [Lsif.items, listed, tag?, other, listing]

/-- **The edges of a dump are those of its stream**: those of the graph, one for each range and one
for each moniker with a package. -/
theorem Dumped.edges (h : Dumped N stream n lines) {link : Link}
    (other : ∀ q : Request, link ≠ q.link) :
    edges link lines = stream.filterMap (joined N link) := by
  induction h with
  | nil => rfl
  | snoc _ _ _ writes ih =>
      rw [edges_append, ih, writes.edges other, List.filterMap_append]
      congr 1

/-- **What a dump lists is what its stream lists.** -/
theorem Dumped.items (h : Dumped N stream n lines) : items lines = stream.flatMap (listed N) := by
  induction h with
  | nil => rfl
  | snoc _ _ _ writes ih =>
      rw [items_append, ih, writes.items, List.flatMap_append, List.flatMap_singleton]

/-! ## Results keep what is listed apart -/

/-- What was made stays. -/
theorem Asks.keep (h : Asks N n q e new n') {g : Id} {r : LineId}
    (found : (q.table n).get? g = some r) : (q.table n').get? g = some r := by
  cases h with
  | kept keeps => rw [keeps.table, found]
  | made _ absent table =>
      rw [table]
      exact Numbering.get?_insert_of_absent absent _ found

theorem Provides.stands {resultSet : Id} (h : Provides N n q resultSet made n') :
    ∃ r, (q.table n').get? resultSet = some r := by
  cases h with
  | known found => exact ⟨_, found⟩
  | made =>
      rw [Numbering.table_withResult]
      exact ⟨_, Table.get?_insert_self _ _ _⟩

/-- An item edge has the results that list it. -/
theorem Writes.answered {g : Id} {i : Graph.Item} (h : Writes N n ⟨g, .item i⟩ new n')
    {tag : String} (tagged : tag? q i = some tag) : ∃ r, (q.table n').get? i.outV = some r := by
  cases h with
  | vertex shown => cases shown
  | link joins => cases joins
  | definitions _ references definitions =>
      rw [Numbering.table_skip, Numbering.table_name]
      cases q with
      | definition => exact definitions.stands
      | references =>
          rw [(definitions.keeps (by decide)).table]
          exact references.stands
  | references other references =>
      rw [Numbering.table_name]
      cases q with
      | definition => exact absurd tagged (by simp [tag?, other])
      | references => exact references.stands

theorem Dumped.answered (h : Dumped N stream n lines) {g : Id} {i : Graph.Item}
    (member : ⟨g, .item i⟩ ∈ stream) {tag : String} (tagged : tag? q i = some tag) :
    ∃ r, (q.table n).get? i.outV = some r := by
  induction h with
  | nil => cases member
  | snoc _ _ _ writes ih =>
      rcases List.mem_append.1 member with old | last
      · obtain ⟨r, found⟩ := ih old
        exact ⟨r, (writes.asks q).keep found⟩
      · obtain rfl := List.mem_singleton.1 last
        exact writes.answered tagged

/-- **A result is that of one result set**, and of one kind. -/
theorem Dumped.result_inj (h : Dumped N stream n lines) {q' : Request} {g g' : Id} {r : LineId}
    (found : (q.table n).get? g = some r) (found' : (q'.table n).get? g' = some r) :
    q = q' ∧ g = g' := by
  have same := payloadsAt_of_mem h.distinct (h.result_vertex found)
  rw [payloadsAt_of_mem h.distinct (h.result_vertex found')] at same
  obtain rfl : q = q' := by
    cases q <;> cases q' <;> first | rfl | cases same
  refine ⟨rfl, ?_⟩
  have requested := h.requested q
  have apart : ((Lsif.edges q.link lines).map (·.2)).Nodup := (h.wellFormed.attached q).2
  have request := (requested.requests _ r).2 ⟨g, found, rfl⟩
  have request' := (requested.requests _ r).2 ⟨g', found', rfl⟩
  have numbers := congrArg Prod.fst (List.inj_on_of_nodup_map apart request request' rfl)
  exact h.number_inj (requested.known g r found).1 (requested.known g' r found').1 numbers

/-! ## Following a request -/

/-- A request from a result set leads to its result, if there is one. -/
theorem Dumped.edgesFrom (h : Dumped N stream n lines) {g : Id} (member : g ∈ stream.map (·.id)) :
    edgesFrom q.link (N.number g) lines = ((q.table n).get? g).toList := by
  have requested := h.requested q
  cases found : (q.table n).get? g with
  | some r =>
      have request := (requested.requests _ r).2 ⟨g, found, rfl⟩
      have only := filter_filterMap_of_only (f := some) (P := (·.1 = N.number g))
        (.of_map _ requested.once) request fun edge inside _ same from_ => by
          obtain rfl := Option.some.inj same
          exact List.inj_on_of_nodup_map requested.once inside request (of_decide_eq_true from_)
      rw [List.filterMap_some] at only
      rw [Lsif.edgesFrom, only]
      simp [Option.filter]
  | none =>
      rw [Lsif.edgesFrom, List.filter_eq_nil_iff.2]
      · rfl
      rintro ⟨a, b⟩ inside from_
      obtain ⟨g', found', number⟩ := (requested.requests a b).1 inside
      obtain rfl := h.number_inj (requested.known g' b found').1 member
        (number.trans (of_decide_eq_true from_))
      simp [found] at found'

/-- What one element lists for a result. -/
theorem Dumped.listed_filter (h : Dumped N stream n lines) {g : Id} {r : LineId}
    (found : (q.table n).get? g = some r) {id : Id} {i : Graph.Item}
    (member : ⟨id, .item i⟩ ∈ stream) :
    ((listed N ⟨id, .item i⟩).filter (·.1 = r)).map (·.2) =
      if i.outV = g then ((tag? q i).map (listing N.number i)).toList else [] := by
  have own : ∀ q' : Request, ∀ tag, tag? q' i = some tag →
      (N.resultAt q' i.outV = r ↔ q' = q ∧ i.outV = g) := by
    intro q' tag tagged
    obtain ⟨r', found'⟩ := h.answered member tagged
    obtain rfl := ((h.requested q').known i.outV r' found').2
    constructor
    · rintro rfl
      exact h.result_inj found' found
    · rintro ⟨rfl, rfl⟩
      exact Option.some.inj (found'.symm.trans found)
  have picked : ((listed N ⟨id, .item i⟩).filter (·.1 = r)).map (·.2) =
      [Request.definition, .references].filterMap fun q' =>
        if q' = q ∧ i.outV = g then (tag? q' i).map (listing N.number i) else none := by
    rw [listed, List.filter_filterMap, List.map_filterMap]
    refine List.filterMap_congr fun q' _ => ?_
    cases tagged : tag? q' i with
    | none => simp
    | some tag => simp [Option.filter, own q' tag tagged]
  rw [picked]
  by_cases here : i.outV = g
  · cases q with
    | definition => cases tagged : tag? .definition i <;> simp [here, tagged]
    | references => cases tagged : tag? .references i <;> simp [here, tagged]
  · simp [here]

/-- **What is listed behind a request** is what the item edges of the result set list. -/
theorem Dumped.follow (h : Dumped N stream n lines) {g : Id} (member : g ∈ stream.map (·.id)) :
    follow q.link (N.number g) lines =
      (Graph.itemsFrom g stream).filterMap fun i => (tag? q i).map (listing N.number i) := by
  have items_ : ∀ f : Graph.Item → Option Listing, (Graph.itemsFrom g stream).filterMap f =
      stream.flatMap fun e => match e.body with
        | .item i => if i.outV = g then (f i).toList else []
        | _ => [] := by
    intro f
    rw [Graph.itemsFrom, List.filterMap_filterMap, List.filterMap_eq_flatMap_toList]
    refine List.flatMap_congr fun e _ => ?_
    rcases e with ⟨id, body⟩
    cases body with
    | item i => by_cases here : i.outV = g <;> simp [here]
    | _ => rfl
  rw [Lsif.follow, h.edgesFrom member, items_]
  cases found : (q.table n).get? g with
  | some r =>
      rw [Option.toList_some, List.flatMap_singleton, listingsOf, h.items, List.filter_flatMap,
        List.map_flatMap]
      refine List.flatMap_congr fun e inside => ?_
      obtain ⟨id, body⟩ := e
      cases body with
      | item i => exact h.listed_filter found inside
      | _ => rfl
  | none =>
      refine (List.flatMap_eq_nil_iff.2 fun e inside => ?_).symm
      obtain ⟨id, body⟩ := e
      cases body with
      | item i =>
          refine ite_eq_right_iff.2 fun here => ?_
          cases tagged : tag? q i with
          | none => rfl
          | some tag =>
              obtain ⟨r, found'⟩ := h.answered inside tagged
              rw [here, found] at found'
              cases found'
      | _ => rfl

/-! ## A dump read as its graph -/

/-- A range that no edge of the graph leads from has one edge, to its symbol. -/
theorem edgesFrom_range {g : Id} {r : Graph.Range} (h : Dumped N stream n lines)
    (backward : Graph.Backward stream) (member : ⟨g, .range r⟩ ∈ stream)
    (alone : ∀ id inV, ⟨id, .next g inV⟩ ∉ stream) :
    edgesFrom .next (N.number g) lines = [N.number r.resultSet] := by
  have own := List.mem_map_of_mem (f := (·.id)) member
  have only := filter_filterMap_of_only (f := joined N .next) (P := (·.1 = N.number g))
    (.of_map _ backward.distinct) member fun e inside edge same from_ => by
      obtain ⟨id, body⟩ := e
      have from_ := of_decide_eq_true from_
      cases body with
      | range r' =>
          obtain rfl := Option.some.inj same
          obtain rfl := h.number_inj (List.mem_map_of_mem (f := (·.id)) inside) own from_
          exact List.inj_on_of_nodup_map backward.distinct inside member rfl
      | next outV inV =>
          obtain rfl := Option.some.inj same
          have mentioned := backward.mentioned inside (g := outV) (by simp [Body.mentions])
          obtain rfl := h.number_inj mentioned own from_
          exact absurd inside (alone id inV)
      | _ => cases same
  rw [Lsif.edgesFrom, h.edges (by intro q; cases q <;> decide), only]
  simp [joined, Option.filter]

theorem packages_of_moniker {g : Id} {m : Moniker} (h : Dumped N stream n lines)
    (backward : Graph.Backward stream) (member : ⟨g, .moniker m⟩ ∈ stream) :
    (edgesFrom .packageInformation (N.number g) lines).flatMap (payloadsAt · lines) =
      ((package? (.moniker m)).map packageVertex).toList := by
  have own := List.mem_map_of_mem (f := (·.id)) member
  have only := filter_filterMap_of_only (f := joined N .packageInformation)
    (P := (·.1 = N.number g)) (.of_map _ backward.distinct) member fun e inside edge same from_ => by
      have shape : (package? e.body).map (fun p => (N.number e.id, N.packageAt p)) = some edge :=
        same
      obtain ⟨p, -, rfl⟩ := Option.map_eq_some_iff.1 shape
      have ids := h.number_inj (List.mem_map_of_mem (f := (·.id)) inside) own (of_decide_eq_true from_)
      exact List.inj_on_of_nodup_map backward.distinct inside member ids
  rw [Lsif.edgesFrom, h.edges (by intro q; cases q <;> decide), only]
  cases package : package? (.moniker m) with
  | none => simp [joined, package]
  | some p =>
      obtain ⟨r, found⟩ := h.packaged.given p ⟨_, member, package⟩
      obtain ⟨-, rfl, vertex⟩ := h.packaged.known p r found
      simp [joined, package, Option.filter, payloadsAt_of_mem h.distinct vertex]

/-- What a reader of a dump finds.  Elements have numbers of their own, and under it stands what a
vertex shows.  Behind a request for definitions stand the ranges of the item edges of definitions,
behind one for references those of all item edges with their properties.  The edges of the other
kinds are those of the graph and one for each range, so that a range has one edge to its symbol
unless edges of the graph lead from it.  A moniker has its package if that has a name. -/
structure Navigates (N : Numbering) (stream : List Element) (lines : List Line) : Prop where
  own : ∀ e ∈ stream, ∀ e' ∈ stream, N.number e.id = N.number e'.id → e = e'
  vertices : ∀ e ∈ stream, ∀ payload, payload? e.body = some payload →
    payloadsAt (N.number e.id) lines = [payload]
  definitions : ∀ g s, ⟨g, .resultSet s⟩ ∈ stream →
    follow .definition (N.number g) lines =
      ((Graph.itemsFrom g stream).filter (·.property = .definitions)).map (listing N.number · "")
  references : ∀ g s, ⟨g, .resultSet s⟩ ∈ stream →
    follow .references (N.number g) lines =
      (Graph.itemsFrom g stream).map fun i => listing N.number i i.property.name
  joins : ∀ link ∈ [Link.next, .moniker, .hover], edges link lines = stream.filterMap (joined N link)
  ranges : ∀ g r, ⟨g, .range r⟩ ∈ stream → (∀ id inV, ⟨id, .next g inV⟩ ∉ stream) →
    edgesFrom .next (N.number g) lines = [N.number r.resultSet]
  packages : ∀ g m, ⟨g, .moniker m⟩ ∈ stream →
    (edgesFrom .packageInformation (N.number g) lines).flatMap (payloadsAt · lines) =
      ((package? (.moniker m)).map packageVertex).toList

theorem Dumped.navigates (h : Dumped N stream n lines) (backward : Graph.Backward stream) :
    Navigates N stream lines where
  own e member e' member' same := by
    have ids := h.number_inj (List.mem_map_of_mem (f := (·.id)) member)
      (List.mem_map_of_mem (f := (·.id)) member') same
    exact List.inj_on_of_nodup_map backward.distinct member member' ids
  vertices e member payload shown := payloadsAt_of_mem h.distinct (h.shows member shown)
  definitions g s member := by
    have found := h.follow (q := .definition) (List.mem_map_of_mem (f := (·.id)) member)
    rw [← List.filterMap_eq_map, List.filterMap_filter]
    refine Eq.trans found (List.filterMap_congr fun i _ => ?_)
    by_cases own : i.property = .definitions <;> simp [tag?, own]
  references g s member := by
    have found := h.follow (q := .references) (List.mem_map_of_mem (f := (·.id)) member)
    rw [← List.filterMap_eq_map]
    exact found
  joins link plain := h.edges fun q => by
    cases q <;> (rintro rfl; revert plain; decide)
  ranges g r member alone := edgesFrom_range h backward member alone
  packages g m member := packages_of_moniker h backward member

/-- **A dump can be read as its graph**, in the file that a writer leaves. -/
theorem dump_navigates {stream : List Element} (h : Graph.Backward stream) :
    Spooled (Writer.emitted stream) (dump stream).2 ∧
      Navigates (dump stream).1 stream (dump stream).2 :=
  ⟨spooled h, (dumped h).navigates h⟩

theorem dump_navigates_oneSymbol :
    Graph.Backward oneSymbol ∧ Navigates (dump oneSymbol).1 oneSymbol (dump oneSymbol).2 ∧
      (dump oneSymbol).1.number 2 = 2 ∧
      follow .references 2 (dump oneSymbol).2 =
        [⟨[7], 1, "definitions"⟩, ⟨[9], 1, "references"⟩] := by
  have backward : Graph.Backward oneSymbol := by decide +kernel
  exact ⟨backward, (dump_navigates backward).2, by decide +kernel, by decide +kernel⟩

/-- A range that an edge of the graph leads from, an item edge that lists it under a name of its
own, and a moniker whose package has no name. -/
def strays : List Element :=
  [⟨1, .document { uri := "file:///a.go" }⟩, ⟨2, .resultSet {}⟩,
    ⟨3, .range { document := 1, resultSet := 2 }⟩, ⟨4, .resultSet {}⟩, ⟨5, .next 3 4⟩,
    ⟨6, .item { outV := 2, inVs := [3], document := 1, property := .other "declarations" }⟩,
    ⟨7, .moniker { identifier := "f", package := { version := "v1.0.0", manager := "gomod" } }⟩]

/-- The range has two edges, a reference is listed that is tagged neither as one nor as a
definition, and the package is left out. -/
theorem dump_navigates_strays :
    Graph.Backward strays ∧
    edgesFrom .next ((dump strays).1.number 3) (dump strays).2 =
      [(dump strays).1.number 2, (dump strays).1.number 4] ∧
    follow .references ((dump strays).1.number 2) (dump strays).2 =
      [⟨[(dump strays).1.number 3], (dump strays).1.number 1, "declarations"⟩] ∧
    edgesFrom .packageInformation ((dump strays).1.number 7) (dump strays).2 = [] := by
  decide +kernel

end SymbolAtlas.Lsif
