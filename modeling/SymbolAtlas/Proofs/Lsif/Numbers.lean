/-
# SymbolAtlas.Proofs.Lsif.Numbers -- a dump is well formed

The numbers of a dump are given as they are needed, for elements of the graph and for lines that
the graph does not have, and every one of them is used by one line (`Dumped.numbered`).  What an
edge of the dump leads from or to stands before it (`Dumped.back`): elements because edges of the
graph mention what came before, results and packages because they are made on first use, each of
them one time (`Dumped.requested`, `Dumped.packages`).
-/
import SymbolAtlas.Proofs.Lsif.Spooling

set_option autoImplicit false

namespace SymbolAtlas.Lsif

open SymbolAtlas.Graph (Id Element Body)

/-! ## Reading lines -/

/-- The lines that an edge leads from or to. -/
def Line.targets : Line → List LineId
  | .vertex _ _ => []
  | .edge _ _ outV inV => [outV, inV]
  | .contains _ outV inVs => outV :: inVs
  | .item _ outV inVs document _ => outV :: document :: inVs

/-- The edges of one kind, from where to where. -/
def edges (link : Link) (lines : List Line) : List (LineId × LineId) :=
  lines.filterMap fun l => match l with
    | .edge _ link' outV inV => if link' = link then some (outV, inV) else none
    | _ => none

/-- The vertices with a payload. -/
def vertices (payload : Vertex) (lines : List Line) : List LineId :=
  lines.filterMap fun l => match l with
    | .vertex id payload' => if payload' = payload then some id else none
    | _ => none

/-- The packages of the package vertices. -/
def packagesIn (lines : List Line) : List PackageInfo :=
  lines.filterMap fun l => match l with
    | .vertex _ (.packageInformation name manager version) => some { name, version, manager }
    | _ => none

@[simp] theorem edges_append (link : Link) (lines more : List Line) :
    edges link (lines ++ more) = edges link lines ++ edges link more := List.filterMap_append

@[simp] theorem vertices_append (payload : Vertex) (lines more : List Line) :
    vertices payload (lines ++ more) = vertices payload lines ++ vertices payload more :=
  List.filterMap_append

@[simp] theorem packagesIn_append (lines more : List Line) :
    packagesIn (lines ++ more) = packagesIn lines ++ packagesIn more := List.filterMap_append

theorem mem_vertices {payload : Vertex} {lines : List Line} {id : LineId} :
    id ∈ vertices payload lines ↔ .vertex id payload ∈ lines := by
  simp only [vertices, List.mem_filterMap]
  constructor
  · rintro ⟨l, member, found⟩
    cases l <;> simp only [reduceCtorEq, Option.ite_none_right_eq_some, Option.some.injEq] at found
    obtain ⟨rfl, rfl⟩ := found
    exact member
  · exact fun member => ⟨_, member, by simp⟩

/-- The numbers of vertices with one payload are numbers of lines. -/
theorem vertices_sublist (payload : Vertex) (lines : List Line) :
    (vertices payload lines).Sublist (lines.map (·.id)) := by
  induction lines with
  | nil => exact .slnil
  | cons l lines ih =>
      cases l with
      | vertex id payload' =>
          by_cases same : payload' = payload
          · simpa [vertices, same, Line.id] using ih
          · simpa [vertices, same, Line.id] using ih.cons id
      | edge id | contains id | item id => simpa [vertices, Line.id] using ih.cons id

/-! ## Every number is used by one line -/

variable {N n n' : Numbering} {stream : List Element} {e : Element} {lines new made : List Line}

/-- Lines that use the numbers after `n` up to those of `n'`, each number for one line. -/
structure Uses (n : Numbering) (new : List Line) (n' : Numbering) : Prop where
  ids : (new.map (·.id)).Perm (List.range' (n.last + 1) new.length)
  last : n'.last = n.last + new.length

theorem uses_nil (n : Numbering) : Uses n [] n := ⟨.nil, rfl⟩

theorem uses_line {l : Line} (own : l.id = n.last + 1) (next : n'.last = n.last + 1) :
    Uses n [l] n' :=
  ⟨.of_eq (by simp [own]), next⟩

theorem Uses.append {n₁ : Numbering} {more : List Line} (h : Uses n new n₁)
    (h' : Uses n₁ more n') : Uses n (new ++ more) n' := by
  have last := h'.last
  rw [h.last, Nat.add_assoc] at last
  refine ⟨?_, by rw [List.length_append]; exact last⟩
  have joined := h.ids.append h'.ids
  rw [h.last, Nat.add_right_comm, List.range'_append_1] at joined
  rw [List.map_append, List.length_append]
  exact joined

theorem Uses.perm {other : List Line} (h : Uses n new n') (same : new.Perm other) :
    Uses n other n' :=
  ⟨same.length_eq ▸ (same.map _).symm.trans h.ids, same.length_eq ▸ h.last⟩

theorem Provides.uses {q : Request} {resultSet : Id} (h : Provides N n q resultSet made n') :
    Uses n made n' := by
  cases h with
  | known => exact uses_nil n
  | made _ own =>
      have vertex : Uses n [.vertex (N.resultAt q resultSet) q.payload] n.skip := uses_line own rfl
      exact vertex.append (uses_line rfl (Numbering.last_withResult q))

theorem Packs.uses {p : PackageInfo} (h : Packs N n p made n') : Uses n made n' := by
  cases h with
  | known => exact uses_nil n
  | made _ own => exact uses_line own rfl

/-- **An element uses the next numbers**, each for one line. -/
theorem Writes.uses (h : Writes N n e new n') : Uses n new n' := by
  cases h with
  | vertex _ _ _ own | link _ own | contains own => exact uses_line own rfl
  | @range g r own =>
      have vertex : Uses n [.vertex (N.number g) (.range r.span (Lining.tagOf r))] (n.name g) :=
        uses_line own rfl
      exact vertex.append (uses_line rfl rfl)
  | @packed g m made _ _ own packs =>
      have vertex : Uses n [.vertex (N.number g) (.moniker m.scheme m.identifier m.kind.name)]
        (n.name g) := uses_line own rfl
      have edge : Uses (n.name g) [.edge (n.last + 2) .packageInformation (N.number g)
        (N.packageAt m.package)] (n.name g).skip := uses_line rfl rfl
      have last : ([Line.edge (n.last + 2) .packageInformation (N.number g)
        (N.packageAt m.package)] ++ made).Perm (made ++ [_]) := List.perm_append_comm
      exact (vertex.append (edge.append packs.uses)).perm (last.cons _)
  | @definitions g i _ _ _ n₂ _ references definitions own =>
      have item : Uses n₂ [.item (N.number g) (N.resultAt .definition i.outV)
        (i.inVs.map N.number) (N.number i.document) ""] (n₂.name g) := uses_line own rfl
      exact (references.uses.append definitions.uses).append (item.append (uses_line rfl rfl))
  | references _ references own => exact references.uses.append (uses_line own rfl)

/-- **Every number of a dump is used by one line.** -/
theorem Dumped.uses (h : Dumped N stream n lines) : Uses {} lines n := by
  induction h with
  | nil => exact uses_nil _
  | snoc _ _ _ writes ih => exact ih.append writes.uses

theorem Dumped.distinct (h : Dumped N stream n lines) : (lines.map (·.id)).Nodup :=
  h.uses.ids.nodup_iff.2 List.nodup_range'

/-- The numbers of lines are between those before and after them. -/
theorem Uses.bounds (h : Uses n new n') {l : Line} (member : l ∈ new) :
    n.last < l.id ∧ l.id ≤ n'.last := by
  obtain ⟨low, high⟩ := List.mem_range'_1.1 (h.ids.mem_iff.1 (List.mem_map_of_mem member))
  rw [Nat.add_right_comm, ← h.last] at high
  exact ⟨low, Nat.le_of_lt_succ high⟩

/-! ## The lines of elements -/

theorem isEdge_of_link? {body : Body} {link : Link} {outV inV : Id}
    (joins : link? body = some (link, outV, inV)) :
    body.IsEdge ∧ payload? body = none ∧ package? body = none := by
  cases body with
  | next | monikerEdge | hoverEdge => exact ⟨trivial, rfl, rfl⟩
  | _ => cases joins

/-- An element has a line, that of a vertex unless it is an edge. -/
theorem Writes.line (h : Writes N n e new n') :
    ∃ l ∈ new, l.id = N.number e.id ∧ ((∃ payload, l = .vertex l.id payload) ∨ e.body.IsEdge) := by
  cases h with
  | vertex | range | packed => exact ⟨_, List.mem_cons_self, rfl, .inl ⟨_, rfl⟩⟩
  | link joins => exact ⟨_, List.mem_cons_self, rfl, .inr (isEdge_of_link? joins).1⟩
  | contains => exact ⟨_, List.mem_cons_self, rfl, .inr trivial⟩
  | definitions | references =>
      exact ⟨_, List.mem_append_right _ List.mem_cons_self, rfl, .inr trivial⟩

/-- A vertex of the graph is written with what it shows. -/
theorem Writes.shows (h : Writes N n e new n') {payload : Vertex}
    (shown : payload? e.body = some payload) : .vertex (N.number e.id) payload ∈ new := by
  cases h with
  | vertex shown' =>
      obtain rfl := Option.some.inj (shown.symm.trans shown')
      exact List.mem_cons_self
  | range | packed =>
      obtain rfl := Option.some.inj shown
      exact List.mem_cons_self
  | link joins =>
      rw [(isEdge_of_link? joins).2.1] at shown
      cases shown
  | contains | definitions | references => cases shown

/-- The number of an element is one of those that its lines use. -/
theorem Writes.bounds (h : Writes N n e new n') :
    n.last < N.number e.id ∧ N.number e.id ≤ n'.last := by
  obtain ⟨l, member, own, -⟩ := h.line
  exact own ▸ h.uses.bounds member

theorem Dumped.number_le (h : Dumped N stream n lines) {g : Id}
    (member : g ∈ stream.map (·.id)) : N.number g ≤ n.last := by
  induction h with
  | nil => cases member
  | snoc _ _ _ writes ih =>
      rw [List.map_append, List.mem_append] at member
      rcases member with old | last
      · exact Nat.le_trans (ih old) (writes.uses.last ▸ Nat.le_add_right _ _)
      · obtain rfl := List.mem_singleton.1 last
        exact writes.bounds.2

/-- **Elements have numbers of their own.** -/
theorem Dumped.number_inj (h : Dumped N stream n lines) {g g' : Id}
    (member : g ∈ stream.map (·.id)) (member' : g' ∈ stream.map (·.id))
    (same : N.number g = N.number g') : g = g' := by
  induction h with
  | nil => cases member
  | snoc before _ _ writes ih =>
      rw [List.map_append, List.mem_append] at member member'
      have above := writes.bounds.1
      rcases member with old | last <;> rcases member' with old' | last'
      · exact ih old old'
      · obtain rfl := List.mem_singleton.1 last'
        exact absurd (before.number_le old) (Nat.not_le.2 (same ▸ above))
      · obtain rfl := List.mem_singleton.1 last
        exact absurd (before.number_le old') (Nat.not_le.2 (same ▸ above))
      · exact (List.mem_singleton.1 last).trans (List.mem_singleton.1 last').symm

theorem Dumped.shows (h : Dumped N stream n lines) (member : e ∈ stream) {payload : Vertex}
    (shown : payload? e.body = some payload) : .vertex (N.number e.id) payload ∈ lines := by
  induction h with
  | nil => cases member
  | snoc _ _ _ writes ih =>
      rcases List.mem_append.1 member with old | last
      · exact List.mem_append_left _ (ih old)
      · obtain rfl := List.mem_singleton.1 last
        exact List.mem_append_right _ (writes.shows shown)

/-! ## Results -/

/-- Lines that have nothing to do with the results of one kind. -/
structure Keeps (n : Numbering) (q : Request) (new : List Line) (n' : Numbering) : Prop where
  table : q.table n' = q.table n
  vertices : vertices q.payload new = []
  edges : edges q.link new = []

/-- What an element does to the results of one kind: nothing, or one is made for a result set that
it mentions, with one edge that leads to it. -/
inductive Asks (N n : Numbering) (q : Request) (e : Element) (new : List Line) (n' : Numbering) :
    Prop where
  | kept (keeps : Keeps n q new n')
  | made {resultSet : Id} (mentioned : resultSet ∈ e.body.mentions)
      (absent : (q.table n).get? resultSet = none)
      (table : q.table n' = (q.table n).insert resultSet (N.resultAt q resultSet))
      (vertices : vertices q.payload new = [N.resultAt q resultSet])
      (edges : edges q.link new = [(N.number resultSet, N.resultAt q resultSet)])

variable {q q' : Request} {n₁ : Numbering} {more : List Line}

theorem Keeps.append (h : Keeps n q new n₁) (h' : Keeps n₁ q more n') :
    Keeps n q (new ++ more) n' :=
  ⟨h'.table.trans h.table, by rw [vertices_append, h.vertices, h'.vertices]; rfl,
    by rw [edges_append, h.edges, h'.edges]; rfl⟩

theorem Asks.append (h : Asks N n q e new n₁) (h' : Keeps n₁ q more n') :
    Asks N n q e (new ++ more) n' := by
  cases h with
  | kept keeps => exact .kept (keeps.append h')
  | made mentioned absent table vertices edges =>
      exact .made mentioned absent (h'.table.trans table)
        (by rw [vertices_append, vertices, h'.vertices]; rfl)
        (by rw [edges_append, edges, h'.edges]; rfl)

theorem Keeps.asks (h : Keeps n q new n₁) (h' : Asks N n₁ q e more n') :
    Asks N n q e (new ++ more) n' := by
  cases h' with
  | kept keeps => exact .kept (h.append keeps)
  | made mentioned absent table vertices edges =>
      rw [h.table] at absent table
      exact .made mentioned absent table (by rw [vertices_append, h.vertices, vertices]; rfl)
        (by rw [edges_append, h.edges, edges]; rfl)

theorem payload?_ne_payload {body : Body} {payload : Vertex} (shown : payload? body = some payload)
    (q : Request) : payload ≠ q.payload := by
  rintro rfl
  cases body <;> cases q <;> cases shown

theorem link?_ne_link {body : Body} {link : Link} {outV inV : Id}
    (joins : link? body = some (link, outV, inV)) (q : Request) : link ≠ q.link := by
  rintro rfl
  cases body <;> cases q <;> cases joins

/-- The results of one kind that an item edge needs. -/
theorem Provides.asks {i : Graph.Item} {g : Id} (h : Provides N n q i.outV made n') :
    Asks N n q ⟨g, .item i⟩ made n' := by
  cases h with
  | known => exact .kept ⟨rfl, rfl, rfl⟩
  | made absent own =>
      refine .made List.mem_cons_self absent ?_ ?_ ?_
      · rw [Numbering.table_withResult, own]
      · simp [vertices]
      · simp [edges]

/-- Results of the other kind are left alone. -/
theorem Provides.keeps {resultSet : Id} (h : Provides N n q resultSet made n') (other : q' ≠ q) :
    Keeps n q' made n' := by
  cases h with
  | known => exact ⟨rfl, rfl, rfl⟩
  | made =>
      refine ⟨Numbering.table_withResult_of_ne other, ?_, ?_⟩
      · cases q <;> cases q' <;> first | rfl | exact absurd rfl other
      · cases q <;> cases q' <;> first | rfl | exact absurd rfl other

theorem Packs.keeps {p : PackageInfo} (h : Packs N n p made n') : Keeps n q made n' := by
  cases h with
  | known => exact ⟨rfl, rfl, rfl⟩
  | made => exact ⟨Numbering.table_withPackage q p, by cases q <;> rfl, rfl⟩

/-- **An element makes a result when it is the first that needs it.** -/
theorem Writes.asks (h : Writes N n e new n') (q : Request) : Asks N n q e new n' := by
  cases h with
  | vertex shown =>
      exact .kept ⟨Numbering.table_name q, by simp [vertices, payload?_ne_payload shown q], rfl⟩
  | range =>
      exact .kept ⟨by rw [Numbering.table_skip, Numbering.table_name], by cases q <;> rfl,
        by cases q <;> rfl⟩
  | @packed g m _ _ _ _ packs =>
      have vertex : Keeps n q [.vertex (N.number g) (.moniker m.scheme m.identifier m.kind.name)]
          (n.name g).skip :=
        ⟨by rw [Numbering.table_skip, Numbering.table_name], by cases q <;> rfl, rfl⟩
      exact .kept ((vertex.append packs.keeps).append ⟨rfl, rfl, by cases q <;> rfl⟩)
  | link joins =>
      exact .kept ⟨Numbering.table_name q, rfl, by simp [edges, link?_ne_link joins q]⟩
  | contains => exact .kept ⟨Numbering.table_name q, rfl, rfl⟩
  | @definitions g i _ _ _ n₂ _ references definitions =>
      refine .append ?_ ⟨(Numbering.table_skip q).trans (Numbering.table_name q), rfl, rfl⟩
      cases q with
      | definition => exact (references.keeps (by decide)).asks definitions.asks
      | references => exact references.asks.append (definitions.keeps (by decide))
  | references _ references =>
      refine .append ?_ ⟨Numbering.table_name q, rfl, rfl⟩
      cases q with
      | definition => exact .kept (references.keeps (by decide))
      | references => exact references.asks

/-- What a dump says of the results of one kind: they are those that were made, each has one edge
that leads to it, and these edges lead from the result sets that they were made for. -/
structure Requested (N : Numbering) (q : Request) (stream : List Element) (n : Numbering)
    (lines : List Line) : Prop where
  answers : vertices q.payload lines = (edges q.link lines).map (·.2)
  requests : ∀ a b, (a, b) ∈ edges q.link lines ↔
    ∃ resultSet, (q.table n).get? resultSet = some b ∧ N.number resultSet = a
  known : ∀ resultSet r, (q.table n).get? resultSet = some r →
    resultSet ∈ stream.map (·.id) ∧ r = N.resultAt q resultSet
  once : ((edges q.link lines).map (·.1)).Nodup

theorem Dumped.requested (h : Dumped N stream n lines) (q : Request) :
    Requested N q stream n lines := by
  induction h with
  | nil =>
      cases q <;> exact ⟨rfl, fun a b => by simp [edges, Request.table],
        fun _ r found => (Option.some_ne_none r found.symm).elim, .nil⟩
  | @snoc stream e n n' lines new before fresh mentioned writes ih =>
      have older : ∀ resultSet r, (q.table n).get? resultSet = some r →
          resultSet ∈ (stream ++ [e]).map (·.id) ∧ r = N.resultAt q resultSet := by
        intro resultSet r found
        obtain ⟨member, same⟩ := ih.known resultSet r found
        exact ⟨by simpa using .inl (List.mem_map.1 member), same⟩
      cases writes.asks q with
      | kept keeps =>
          refine ⟨?_, fun a b => ?_, ?_, ?_⟩
          · rw [vertices_append, keeps.vertices, edges_append, keeps.edges, List.append_nil,
              List.append_nil, ih.answers]
          · rw [edges_append, keeps.edges, List.append_nil, keeps.table, ih.requests]
          · rw [keeps.table]
            exact older
          · rw [edges_append, keeps.edges, List.append_nil]
            exact ih.once
      | @made resultSet mentions absent table answer request =>
          have here := mentioned resultSet mentions
          refine ⟨?_, fun a b => ?_, fun other r found => ?_, ?_⟩
          · rw [vertices_append, edges_append, answer, request, List.map_append, ih.answers]
            rfl
          · rw [edges_append, request, List.mem_append, ih.requests, table, List.mem_singleton,
              Prod.mk.injEq]
            constructor
            · rintro (⟨other, found, from_⟩ | ⟨rfl, rfl⟩)
              · exact ⟨other, Numbering.get?_insert_of_absent absent _ found, from_⟩
              · exact ⟨resultSet, Table.get?_insert_self _ _ _, rfl⟩
            · rintro ⟨other, found, rfl⟩
              rw [Table.get?_insert] at found
              split at found
              · rename_i same
                exact .inr ⟨same ▸ rfl, (Option.some.inj found).symm⟩
              · exact .inl ⟨other, found, rfl⟩
          · rw [table, Table.get?_insert] at found
            split at found
            · rename_i same
              subst same
              exact ⟨by simpa using .inl (List.mem_map.1 here), (Option.some.inj found).symm⟩
            · exact older other r found
          · rw [edges_append, request, List.map_append, List.nodup_append]
            refine ⟨ih.once, by simp, ?_⟩
            intro a old b new same
            obtain rfl := List.mem_singleton.1 new
            obtain ⟨⟨a, r⟩, member, rfl⟩ := List.mem_map.1 old
            obtain ⟨other, found, from_⟩ := (ih.requests a r).1 member
            obtain rfl := before.number_inj (ih.known other r found).1 here (from_.trans same)
            simp [absent] at found

/-! ## Packages -/

/-- What an element does to the packages: nothing, or the package of a moniker is made. -/
inductive Needs (N n : Numbering) (e : Element) (new : List Line) (n' : Numbering) : Prop where
  | kept (packages : n'.packages = n.packages) (none : packagesIn new = [])
      (known : ∀ p, package? e.body = some p → n.packages.get? p = some (N.packageAt p))
  | made {p : PackageInfo} (own : package? e.body = some p) (absent : n.packages.get? p = none)
      (packages : n'.packages = n.packages.insert p (N.packageAt p))
      (one : packagesIn new = [p]) (vertex : .vertex (N.packageAt p) (packageVertex p) ∈ new)

theorem packagesIn_of_payload? {body : Body} {payload : Vertex} (shown : payload? body = some payload)
    (id : LineId) : packagesIn [.vertex id payload] = [] := by
  cases body <;> cases shown <;> rfl

theorem Provides.packages {resultSet : Id} (h : Provides N n q resultSet made n') :
    n'.packages = n.packages ∧ packagesIn made = [] := by
  cases h with
  | known => exact ⟨rfl, rfl⟩
  | made => exact ⟨Numbering.packages_withResult q, by cases q <;> rfl⟩

/-- **An element makes a package when it is the first of it.** -/
theorem Writes.needs (h : Writes N n e new n') : Needs N n e new n' := by
  cases h with
  | vertex shown plain bare =>
      exact .kept rfl (packagesIn_of_payload? shown _) fun p own => by
        rw [bare] at own
        cases own
  | range => exact .kept rfl rfl nofun
  | packed named _ packs =>
      have own : package? (.moniker _) = some _ := if_neg named
      cases packs with
      | known found =>
          refine .kept rfl rfl fun p own' => ?_
          obtain rfl := Option.some.inj (own.symm.trans own')
          exact found
      | made absent first =>
          refine .made own absent ?_ rfl (List.mem_cons_of_mem _ List.mem_cons_self)
          rw [first]
          rfl
  | link joins =>
      exact .kept rfl rfl fun p own => by
        rw [(isEdge_of_link? joins).2.2] at own
        cases own
  | contains => exact .kept rfl rfl nofun
  | definitions _ references definitions =>
      obtain ⟨same, none⟩ := references.packages
      obtain ⟨same', none'⟩ := definitions.packages
      refine .kept (same'.trans same) ?_ nofun
      rw [packagesIn_append, packagesIn_append, none, none']
      rfl
  | references _ references =>
      obtain ⟨same, none⟩ := references.packages
      refine .kept same ?_ nofun
      rw [packagesIn_append, none]
      rfl

/-- The packages of a stream: those of its monikers that have a name. -/
def PackageOf (stream : List Element) (p : PackageInfo) : Prop :=
  ∃ e ∈ stream, package? e.body = some p

theorem packageOf_snoc {p : PackageInfo} :
    PackageOf (stream ++ [e]) p ↔ PackageOf stream p ∨ package? e.body = some p := by
  constructor
  · rintro ⟨other, member, own⟩
    rcases List.mem_append.1 member with old | last
    · exact .inl ⟨other, old, own⟩
    · obtain rfl := List.mem_singleton.1 last
      exact .inr own
  · rintro (⟨other, member, own⟩ | own)
    · exact ⟨other, List.mem_append_left _ member, own⟩
    · exact ⟨e, by simp, own⟩

theorem mem_packagesIn {p : PackageInfo} :
    p ∈ packagesIn lines ↔ ∃ id, .vertex id (packageVertex p) ∈ lines := by
  simp only [packagesIn, List.mem_filterMap]
  constructor
  · rintro ⟨l, member, found⟩
    rcases l with ⟨id, payload⟩ | _ | _ | _
    · cases payload <;> cases found
      exact ⟨id, member⟩
    all_goals cases found
  · exact fun ⟨id, member⟩ => ⟨_, member, rfl⟩

/-- What a dump says of packages: each has one vertex. -/
structure Packaged (N : Numbering) (stream : List Element) (n : Numbering) (lines : List Line) :
    Prop where
  once : (packagesIn lines).Nodup
  known : ∀ p r, n.packages.get? p = some r →
    PackageOf stream p ∧ r = N.packageAt p ∧ .vertex r (packageVertex p) ∈ lines
  given : ∀ p, PackageOf stream p → ∃ r, n.packages.get? p = some r
  listed : ∀ p ∈ packagesIn lines, PackageOf stream p

theorem Dumped.packaged (h : Dumped N stream n lines) : Packaged N stream n lines := by
  induction h with
  | nil => exact ⟨.nil, nofun, fun p ⟨_, member, _⟩ => absurd member List.not_mem_nil, nofun⟩
  | @snoc stream e n n' lines new before fresh mentioned writes ih =>
      have older : ∀ p r, n.packages.get? p = some r → PackageOf (stream ++ [e]) p ∧
          r = N.packageAt p ∧ .vertex r (packageVertex p) ∈ lines ++ new := by
        intro p r found
        obtain ⟨own, same, vertex⟩ := ih.known p r found
        exact ⟨packageOf_snoc.2 (.inl own), same, List.mem_append_left _ vertex⟩
      cases writes.needs with
      | kept packages none known =>
          rw [← packages] at older
          refine ⟨?_, older, fun p own => ?_, fun p member => ?_⟩
          · rw [packagesIn_append, none, List.append_nil]
            exact ih.once
          · rw [packages]
            rcases packageOf_snoc.1 own with old | last
            · exact ih.given p old
            · exact ⟨_, known p last⟩
          · rw [packagesIn_append, none, List.append_nil] at member
            exact packageOf_snoc.2 (.inl (ih.listed p member))
      | @made p own absent packages one vertex =>
          have new_ : PackageOf (stream ++ [e]) p := packageOf_snoc.2 (.inr own)
          refine ⟨?_, fun p' r found => ?_, fun p' own' => ?_, fun p' member => ?_⟩
          · rw [packagesIn_append, one, List.nodup_append]
            refine ⟨ih.once, by simp, ?_⟩
            intro p' old q' last same
            obtain rfl := List.mem_singleton.1 last
            subst same
            obtain ⟨r, found⟩ := ih.given p' (ih.listed p' old)
            simp [absent] at found
          · rw [packages, Table.get?_insert] at found
            split at found
            · rename_i same
              subst same
              obtain rfl := Option.some.inj found
              exact ⟨new_, rfl, List.mem_append_right _ vertex⟩
            · exact older p' r found
          · rw [packages, Table.get?_insert]
            split
            · exact ⟨_, rfl⟩
            · rename_i other
              rcases packageOf_snoc.1 own' with old | last
              · exact ih.given p' old
              · exact absurd (Option.some.inj (own.symm.trans last)) other
          · rw [packagesIn_append, one, List.mem_append, List.mem_singleton] at member
            rcases member with old | rfl
            · exact packageOf_snoc.2 (.inl (ih.listed p' old))
            · exact new_

/-! ## Edges lead back -/

/-- A number that an edge of the dump may mention behind these lines: that of a vertex among them,
or of the line of an edge of the graph that an element of the stream mentions. -/
def Reached (stream : List Element) (number : Id → LineId) (lines : List Line) (k : LineId) : Prop :=
  (∃ payload, .vertex k payload ∈ lines) ∨
    (∃ l ∈ lines, l.id = k) ∧ ∃ e ∈ stream, e.body.IsEdge ∧ number e.id = k ∧
      ∃ e' ∈ stream, e.id ∈ e'.body.mentions

/-- Every edge of the dump leads from and to what stands before it. -/
def Back (stream : List Element) (number : Id → LineId) (lines : List Line) : Prop :=
  ∀ before l after, lines = before ++ l :: after → ∀ k ∈ l.targets, Reached stream number before k

variable {number : Id → LineId} {k : LineId}

theorem Reached.mono {stream' : List Element} (h : Reached stream number lines k)
    (longer : stream ⊆ stream') (later : lines ⊆ more) : Reached stream' number more k := by
  rcases h with ⟨payload, vertex⟩ | ⟨⟨l, member, own⟩, e, inside, isEdge, same, e', inside', mentions⟩
  · exact .inl ⟨payload, later vertex⟩
  · exact .inr ⟨⟨l, later member, own⟩, e, longer inside, isEdge, same, e', longer inside', mentions⟩

theorem Back.mono {stream' : List Element} (h : Back stream number lines)
    (longer : stream ⊆ stream') : Back stream' number lines :=
  fun before l after split k member =>
    (h before l after split k member).mono longer (List.Subset.refl _)

/-- One more line, if it leads to what is there. -/
theorem Back.snoc (h : Back stream number lines) {l : Line}
    (reached : ∀ k ∈ l.targets, Reached stream number lines k) : Back stream number (lines ++ [l]) := by
  intro before l' after split
  rcases List.eq_nil_or_concat after with rfl | ⟨after, last, rfl⟩
  · obtain ⟨rfl, same⟩ := List.append_inj' split rfl
    obtain rfl := (List.cons.inj same).1
    exact reached
  · rw [List.concat_eq_append, ← List.cons_append, ← List.append_assoc] at split
    exact h before l' after (List.append_inj' split rfl).1

theorem Back.vertex (h : Back stream number lines) (id : LineId) (payload : Vertex) :
    Back stream number (lines ++ [.vertex id payload]) :=
  h.snoc fun _ member => absurd member List.not_mem_nil

/-- An element that was written has a line, that of a vertex unless it is an edge. -/
theorem Dumped.line (h : Dumped N stream n lines) (member : e ∈ stream) :
    ∃ l ∈ lines, l.id = N.number e.id ∧ ((∃ payload, l = .vertex l.id payload) ∨ e.body.IsEdge) := by
  induction h with
  | nil => cases member
  | snoc _ _ _ writes ih =>
      rcases List.mem_append.1 member with old | last
      · obtain ⟨l, inside, own⟩ := ih old
        exact ⟨l, List.mem_append_left _ inside, own⟩
      · obtain rfl := List.mem_singleton.1 last
        obtain ⟨l, inside, own⟩ := writes.line
        exact ⟨l, List.mem_append_right _ inside, own⟩

/-- What the next element mentions can be mentioned. -/
theorem Dumped.reached (h : Dumped N stream n lines) {g : Id}
    (mentions : g ∈ e.body.mentions) (member : g ∈ stream.map (·.id)) :
    Reached (stream ++ [e]) N.number lines (N.number g) := by
  obtain ⟨e', inside, rfl⟩ := List.mem_map.1 member
  obtain ⟨l, listed, own, ⟨payload, shape⟩ | isEdge⟩ := h.line inside
  · rw [shape, own] at listed
    exact .inl ⟨payload, listed⟩
  · exact .inr ⟨⟨l, listed, own⟩, e', List.mem_append_left _ inside, isEdge, rfl, e, by simp, mentions⟩

/-- What a result that is needed adds leads back, and the result can be mentioned. -/
theorem Provides.back {resultSet : Id} (h : Provides N n q resultSet made n')
    (back : Back stream number lines)
    (stands : ∀ r, (q.table n).get? resultSet = some r → .vertex r q.payload ∈ lines)
    (origin : Reached stream number lines (N.number resultSet)) :
    Back stream number (lines ++ made) ∧
      .vertex (N.resultAt q resultSet) q.payload ∈ lines ++ made := by
  cases h with
  | known found =>
      rw [List.append_nil]
      exact ⟨back, stands _ found⟩
  | made =>
      refine ⟨?_, List.mem_append_right _ List.mem_cons_self⟩
      rw [List.append_cons]
      refine (back.vertex _ _).snoc fun k member => ?_
      rcases member with _ | ⟨_, _ | ⟨_, ⟨⟩⟩⟩
      · exact origin.mono (List.Subset.refl _) (List.subset_append_left _ _)
      · exact .inl ⟨_, List.mem_append_right _ List.mem_cons_self⟩

/-- The edge of the dump for an item edge leads from a result to what the item edge mentions. -/
theorem Back.item {i : Graph.Item} (h : Back stream number lines)
    (result : ∃ payload, .vertex k payload ∈ lines)
    (reached : ∀ g ∈ (Body.item i).mentions, Reached stream number lines (number g)) (id : LineId)
    (property : String) :
    Back stream number
      (lines ++ [.item id k (i.inVs.map number) (number i.document) property]) := by
  refine h.snoc fun k' member => ?_
  rcases List.mem_cons.1 member with rfl | rest
  · exact .inl result
  rcases List.mem_cons.1 rest with rfl | part
  · exact reached i.document (by simp [Body.mentions])
  · obtain ⟨g, inside, rfl⟩ := List.mem_map.1 part
    exact reached g (by simp [Body.mentions, inside])

/-- A result that was made has its vertex. -/
theorem Dumped.result_vertex (h : Dumped N stream n lines) {g : Id} {r : LineId}
    (found : (q.table n).get? g = some r) : .vertex r q.payload ∈ lines := by
  have requested := h.requested q
  rw [← mem_vertices, requested.answers]
  exact List.mem_map.2 ⟨(N.number g, r), (requested.requests _ _).2 ⟨g, found, rfl⟩, rfl⟩

/-- **The lines of an element lead back.** -/
theorem Writes.back (h : Writes N n e new n') (before : Dumped N stream n lines)
    (mentioned : ∀ g ∈ e.body.mentions, g ∈ stream.map (·.id))
    (back : Back stream N.number lines) : Back (stream ++ [e]) N.number (lines ++ new) := by
  have back : Back (stream ++ [e]) N.number lines := back.mono (List.subset_append_left _ _)
  have reached : ∀ g ∈ e.body.mentions, Reached (stream ++ [e]) N.number lines (N.number g) :=
    fun g member => before.reached member (mentioned g member)
  cases h with
  | vertex => exact back.vertex _ _
  | @range g r =>
      rw [List.append_cons lines]
      refine (back.vertex _ _).snoc fun k member => ?_
      rcases member with _ | ⟨_, _ | ⟨_, ⟨⟩⟩⟩
      · exact .inl ⟨_, List.mem_append_right _ List.mem_cons_self⟩
      · exact (reached r.resultSet (by simp [Body.mentions])).mono (List.Subset.refl _)
          (List.subset_append_left _ _)
  | @packed g m made _ named _ packs =>
      have vertex : Back (stream ++ [⟨g, .moniker m⟩]) N.number (lines ++
          [.vertex (N.number g) (.moniker m.scheme m.identifier m.kind.name)]) := back.vertex _ _
      have package : Back (stream ++ [⟨g, .moniker m⟩]) N.number (lines ++
          .vertex (N.number g) (.moniker m.scheme m.identifier m.kind.name) :: made) ∧
          .vertex (N.packageAt m.package) (packageVertex m.package) ∈ lines ++
            .vertex (N.number g) (.moniker m.scheme m.identifier m.kind.name) :: made := by
        cases packs with
        | known found =>
            exact ⟨vertex, List.mem_append_left _ (before.packaged.known _ _ found).2.2⟩
        | made =>
            rw [List.append_cons lines]
            exact ⟨vertex.vertex _ _, List.mem_append_right _ List.mem_cons_self⟩
      rw [← List.append_assoc]
      refine package.1.snoc fun k member => ?_
      rcases member with _ | ⟨_, _ | ⟨_, ⟨⟩⟩⟩
      · exact .inl ⟨_, List.mem_append_right _ List.mem_cons_self⟩
      · exact .inl ⟨_, package.2⟩
  | @link g body link outV inV joins =>
      refine back.snoc fun k member => ?_
      have mentions : body.mentions = [outV, inV] := by
        cases body <;> cases joins <;> rfl
      rcases member with _ | ⟨_, _ | ⟨_, ⟨⟩⟩⟩
      · exact reached outV (by simp [mentions])
      · exact reached inV (by simp [mentions])
  | @contains g outV inVs =>
      refine back.snoc fun k member => ?_
      rcases List.mem_cons.1 member with rfl | part
      · exact reached outV (by simp [Body.mentions])
      · obtain ⟨h, inside, rfl⟩ := List.mem_map.1 part
        exact reached h (by simp [Body.mentions, inside])
  | @definitions g i first second n₁ n₂ _ references definitions =>
      have origin := reached i.outV (by simp [Body.mentions])
      obtain ⟨back₁, answers₁⟩ :=
        references.back back (fun r found => before.result_vertex found) origin
      have table : Request.definition.table n₁ = Request.definition.table n :=
        (references.keeps (by decide)).table
      obtain ⟨back₂, answers₂⟩ := definitions.back back₁
        (fun r found => List.mem_append_left _ (before.result_vertex (table ▸ found)))
        (origin.mono (List.Subset.refl _) (List.subset_append_left _ _))
      rw [← List.append_assoc, ← List.append_assoc, List.append_cons (lines ++ first ++ second)]
      have later : lines ⊆ lines ++ first ++ second := by
        rw [List.append_assoc]
        exact List.subset_append_left _ _
      have one := back₂.item ⟨_, answers₂⟩ (fun g member =>
        (reached g member).mono (List.Subset.refl _) later) (N.number g) ""
      exact one.item ⟨_, List.mem_append_left _ (List.mem_append_left _ answers₁)⟩ (fun g member =>
        (reached g member).mono (List.Subset.refl _)
          (List.Subset.trans later (List.subset_append_left _ _))) _ _
  | @references g i first n₁ _ references =>
      obtain ⟨back₁, answers₁⟩ := references.back back (fun r found => before.result_vertex found)
        (reached i.outV (by simp [Body.mentions]))
      rw [← List.append_assoc]
      exact back₁.item ⟨_, answers₁⟩ (fun g member =>
        (reached g member).mono (List.Subset.refl _) (List.subset_append_left _ _)) _ _

/-- **Edges of a dump lead back**, to vertices or to edges of the graph. -/
theorem Dumped.back (h : Dumped N stream n lines) : Back stream N.number lines := by
  induction h with
  | nil =>
      intro before l after split
      simp at split
  | snoc before _ mentioned writes ih => exact writes.back before mentioned ih

/-! ## Dumps are well formed -/

/-- What makes lines a dump.  Their numbers are their own and positive, and edges lead back.  The
vertices for results are those that the edges of requests lead to, each of them one time, and no
two such edges of one kind lead from one place.  There is one vertex for each package that a
moniker of the stream has. -/
structure WellFormed (stream : List Element) (number : Id → LineId) (lines : List Line) : Prop where
  distinct : (lines.map (·.id)).Nodup
  positive : ∀ l ∈ lines, 0 < l.id
  back : Back stream number lines
  attached : ∀ q : Request, vertices q.payload lines = (edges q.link lines).map (·.2) ∧
    ((edges q.link lines).map (·.2)).Nodup
  single : ∀ q : Request, ((edges q.link lines).map (·.1)).Nodup
  packages : (packagesIn lines).Nodup ∧ ∀ p, p ∈ packagesIn lines ↔ PackageOf stream p

theorem Dumped.wellFormed (h : Dumped N stream n lines) : WellFormed stream N.number lines where
  distinct := h.distinct
  positive l member := Nat.zero_lt_of_lt (h.uses.bounds member).1
  back := h.back
  attached q := by
    have answers := (h.requested q).answers
    exact ⟨answers, answers ▸ h.distinct.sublist (vertices_sublist _ _)⟩
  single q := (h.requested q).once
  packages := by
    refine ⟨h.packaged.once, fun p => ⟨h.packaged.listed p, fun own => ?_⟩⟩
    obtain ⟨r, found⟩ := h.packaged.given p own
    exact mem_packagesIn.2 ⟨r, (h.packaged.known p r found).2.2⟩

/-- **A stream that is fit to be dumped gives a dump that is well formed**, and a writer whose file
takes everything writes these lines and counts them. -/
theorem dump_wellFormed {stream : List Element} (h : Graph.Backward stream) :
    Spooled (Writer.emitted stream) (dump stream).2 ∧
      WellFormed stream (dump stream).1.number (dump stream).2 :=
  ⟨spooled h, (dumped h).wellFormed⟩

/-- A symbol that is defined and used in one document, and its moniker. -/
def oneSymbol : List Element :=
  [⟨1, .document { uri := "file:///a.go" }⟩, ⟨2, .resultSet { name := "f" }⟩,
    ⟨3, .moniker { identifier := "f", package := { name := "p", manager := "gomod" } }⟩,
    ⟨4, .monikerEdge 2 3⟩, ⟨5, .range { document := 1, resultSet := 2, role := .definition }⟩,
    ⟨6, .range { document := 1, resultSet := 2 }⟩,
    ⟨7, .item { outV := 2, inVs := [5], document := 1, property := .definitions }⟩,
    ⟨8, .item { outV := 2, inVs := [6], document := 1, property := .references }⟩,
    ⟨9, .contains 1 [5, 6]⟩]

theorem dump_wellFormed_oneSymbol :
    Graph.Backward oneSymbol ∧ (dump oneSymbol).2.length = 18 ∧
      (Writer.emitted oneSymbol).count = 18 ∧
      WellFormed oneSymbol (dump oneSymbol).1.number (dump oneSymbol).2 := by
  have backward : Graph.Backward oneSymbol := by decide +kernel
  have lines : (dump oneSymbol).2.length = 18 := by decide +kernel
  obtain ⟨spooled, wellFormed⟩ := dump_wellFormed backward
  exact ⟨backward, lines, spooled.count.trans lines, wellFormed⟩

/-- Two result sets with an edge between them, an edge that leads from this edge, and a moniker
whose package has no name. -/
def crossed : List Element :=
  [⟨1, .resultSet {}⟩, ⟨2, .resultSet {}⟩, ⟨3, .next 1 2⟩, ⟨4, .next 3 2⟩,
    ⟨5, .moniker { identifier := "f", package := { version := "v1.0.0", manager := "gomod" } }⟩]

/-- An edge of the dump leads from an edge where an edge of the graph does, and a package without a
name has no vertex. -/
theorem dump_wellFormed_crossed :
    Graph.Backward crossed ∧
    (∃ l ∈ (dump crossed).2, ∃ k ∈ l.targets, ¬ ∃ payload, .vertex k payload ∈ (dump crossed).2) ∧
    ∃ g m, ⟨g, .moniker m⟩ ∈ crossed ∧ m.package ≠ {} ∧ m.package ∉ packagesIn (dump crossed).2 := by
  have lines : (dump crossed).2 =
      [.vertex 1 .resultSet, .vertex 2 .resultSet, .edge 3 .next 1 2, .edge 4 .next 3 2,
        .vertex 5 (.moniker "" "f" "export")] := by decide +kernel
  have moniker : (⟨5, .moniker
      { identifier := "f", package := { version := "v1.0.0", manager := "gomod" } }⟩ : Element) ∈
      crossed := by decide
  have between : .edge 4 .next 3 2 ∈ (dump crossed).2 := by
    rw [lines]
    decide
  refine ⟨by decide +kernel, ⟨_, between, 3, by decide, ?_⟩, _, _, moniker, by decide, ?_⟩
  · rintro ⟨payload, member⟩
    rw [lines] at member
    simp at member
  · rw [lines]
    decide

/-- Where elements mention vertices only, edges lead to vertices only; so they do for every stream
whose links lead back. -/
theorem dump_back_of_ordered {stream : List Element} (h : Graph.Ordered stream)
    {before after : List Line} {l : Line} (split : (dump stream).2 = before ++ l :: after) :
    ∀ k ∈ l.targets, ∃ payload, .vertex k payload ∈ before := by
  intro k member
  rcases (dumped h.backward).back before l after split k member with
    vertex | ⟨-, e, inside, isEdge, -, e', inside', mentions⟩
  · exact vertex
  · obtain ⟨v, other, here, same, sort⟩ := (h.linked inside').holds mentions
    obtain rfl := h.unique inside here same.symm
    exact absurd isEdge (Graph.not_isEdge_of_vertex? sort)

end SymbolAtlas.Lsif
