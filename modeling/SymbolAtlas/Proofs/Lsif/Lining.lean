/-
# SymbolAtlas.Proofs.Lsif.Lining -- the lines of an element

A dump numbers what it meets, and makes results and packages when they are first needed, so the
lines of an element depend on all that came before.  Read against the numbers that are given in
the end they do not: `Writes N` says for each kind of element which lines it adds, where `N` is
any later state of the numbers.  What varies is whether a result is made (`Provides`) or a package
(`Packs`).

A stream is fit to be dumped if its IDs are distinct and edges and ranges mention none but earlier
elements (`Backward`).  Then every element writes (`writes_element`), and a dump is one such step
after the other (`dumped`).
-/
import Mathlib.Data.List.Induction
import SymbolAtlas.Lsif.Numbering
import SymbolAtlas.Proofs.Graph.WellFormed

set_option autoImplicit false

namespace SymbolAtlas

open SymbolAtlas.Graph (Id Element Body)

namespace Graph

/-! ## Streams that mention what came before -/

/-- The IDs that an edge or a range mentions. -/
def Body.mentions : Body → List Id
  | .range r => [r.document, r.resultSet]
  | .contains outV inVs => outV :: inVs
  | .item i => i.outV :: i.document :: i.inVs
  | .next outV inV | .monikerEdge outV inV | .hoverEdge outV inV => [outV, inV]
  | _ => []

/-- An edge of the graph. -/
def Body.IsEdge : Body → Prop
  | .contains _ _ | .item _ | .next _ _ | .monikerEdge _ _ | .hoverEdge _ _ => True
  | _ => False

/-- An element of the graph, and not one of somebody else. -/
def Body.IsKnown : Body → Prop
  | .foreign _ _ => False
  | _ => True

/-- The elements of a stream have IDs of their own, and edges and ranges mention none but earlier
elements. -/
structure Backward (stream : List Element) : Prop where
  distinct : (stream.map (·.id)).Nodup
  known : ∀ e ∈ stream, e.body.IsKnown
  earlier : ∀ before e after, stream = before ++ e :: after →
    ∀ g ∈ e.body.mentions, g ∈ before.map (·.id)

instance : (body : Body) → Decidable body.IsKnown
  | .foreign _ _ => isFalse not_false
  | .metadata _ | .project _ | .document _ | .resultSet _ | .range _ | .moniker _ | .hover _
  | .contains _ _ | .item _ | .next _ _ | .monikerEdge _ _ | .hoverEdge _ _ => isTrue trivial

/-- Whether a stream is one can be tested place by place. -/
theorem backward_iff {stream : List Element} :
    Backward stream ↔ (stream.map (·.id)).Nodup ∧ (∀ e ∈ stream, e.body.IsKnown) ∧
      ∀ k : Fin stream.length, ∀ g ∈ stream[k].body.mentions, g ∈ (stream.take k).map (·.id) := by
  constructor
  · intro h
    refine ⟨h.distinct, h.known, fun k => h.earlier _ _ (stream.drop (k + 1)) ?_⟩
    simp
  · rintro ⟨distinct, known, earlier⟩
    refine ⟨distinct, known, ?_⟩
    rintro before e after rfl
    simpa using earlier ⟨before.length, by simp⟩

instance (stream : List Element) : Decidable (Backward stream) :=
  decidable_of_iff _ backward_iff.symm

theorem Backward.of_append {stream more : List Element} (h : Backward (stream ++ more)) :
    Backward stream where
  distinct := by
    have distinct := h.distinct
    rw [List.map_append, List.nodup_append] at distinct
    exact distinct.1
  known e member := h.known e (List.mem_append_left _ member)
  earlier before e after split := h.earlier before e (after ++ more) (by simp [split])

/-- What an element mentions is in the stream. -/
theorem Backward.mentioned {stream : List Element} (h : Backward stream) {e : Element}
    (member : e ∈ stream) {g : Id} (mentions : g ∈ e.body.mentions) : g ∈ stream.map (·.id) := by
  obtain ⟨before, after, rfl⟩ := List.append_of_mem member
  rw [List.map_append]
  exact List.mem_append_left _ (h.earlier before e after rfl g mentions)

/-- The last element of such a stream is new and mentions what is there. -/
theorem Backward.last {stream : List Element} {e : Element} (h : Backward (stream ++ [e])) :
    e.id ∉ stream.map (·.id) ∧ e.body.IsKnown ∧ ∀ g ∈ e.body.mentions, g ∈ stream.map (·.id) := by
  refine ⟨fun member => ?_, h.known e (by simp), h.earlier stream e [] rfl⟩
  have distinct := h.distinct
  rw [List.map_append, List.nodup_append] at distinct
  exact distinct.2.2 _ member _ (by simp) rfl

theorem not_isEdge_of_vertex? {body : Body} {v : Vertex} (sort : body.vertex? = some v) :
    ¬ body.IsEdge := by
  cases body <;> first | exact not_false | cases sort

/-- What an element that is linked in a stream mentions is a vertex of the stream. -/
theorem Body.LinkedIn.holds {stream : List Element} {body : Body} (h : body.LinkedIn stream)
    {g : Id} (mentioned : g ∈ body.mentions) : ∃ v, Holds stream v g := by
  cases body with
  | range r =>
      rcases mentioned with _ | ⟨_, _ | ⟨_, ⟨⟩⟩⟩
      · exact ⟨_, h.1⟩
      · exact ⟨_, h.2⟩
  | contains outV inVs =>
      rcases h with ⟨origin, parts⟩ | ⟨origin, parts⟩ <;>
        rcases List.mem_cons.1 mentioned with rfl | member
      · exact ⟨_, origin⟩
      · exact ⟨_, parts g member⟩
      · exact ⟨_, origin⟩
      · exact ⟨_, parts g member⟩
  | item i =>
      rcases List.mem_cons.1 mentioned with rfl | rest
      · exact ⟨_, h.1⟩
      rcases List.mem_cons.1 rest with rfl | member
      · exact ⟨_, h.2.2⟩
      · exact ⟨_, h.2.1 g member⟩
  | next | monikerEdge | hoverEdge =>
      rcases mentioned with _ | ⟨_, _ | ⟨_, ⟨⟩⟩⟩
      · exact ⟨_, h.1⟩
      · exact ⟨_, h.2⟩
  | metadata | project | document | resultSet | moniker | hover | foreign => cases mentioned

/-- A stream whose links lead back is one. -/
theorem Ordered.backward {stream : List Element} (h : Ordered stream) : Backward stream where
  distinct := h.distinct
  known e member := by
    have linked := h.linked member
    cases body : e.body with
    | foreign =>
        rw [body] at linked
        exact linked
    | _ => exact trivial
  earlier before e after split g mentioned := by
    obtain ⟨v, other, member, rfl, -⟩ := (h before e after split).2.holds mentioned
    exact List.mem_map_of_mem member

end Graph

namespace Lsif

/-! ## Numbers -/

/-- What can be asked of a symbol. -/
inductive Request where
  | definition
  | references
deriving DecidableEq, Repr

namespace Request

/-- The vertex that collects the answers. -/
def payload : Request → Vertex
  | definition => .definitionResult
  | references => .referenceResult

/-- The edge that leads to it. -/
def link : Request → Link
  | definition => .definition
  | references => .references

/-- The results that were made. -/
def table : Request → Numbering → Table Id LineId
  | definition => (·.definitionResults)
  | references => (·.referenceResults)

/-- The numbers with other results. -/
def record : Request → Table Id LineId → Numbering → Numbering
  | definition => fun t n => { n with definitionResults := t }
  | references => fun t n => { n with referenceResults := t }

/-- The result of a result set. -/
def result (q : Request) : Id → Lining LineId :=
  Lining.resultOf q.table q.record q.payload q.link

end Request

namespace Numbering

/-- The number of an element. -/
def number (n : Numbering) (g : Id) : LineId := (n.ids.get? g).getD 0

/-- The number of a result. -/
def resultAt (n : Numbering) (q : Request) (resultSet : Id) : LineId :=
  ((q.table n).get? resultSet).getD 0

/-- The number of a package. -/
def packageAt (n : Numbering) (p : PackageInfo) : LineId := (n.packages.get? p).getD 0

/-- The numbers after one that belongs to a line only. -/
def skip (n : Numbering) : Numbering := { n with last := n.last + 1 }

/-- The numbers after an element got one. -/
def name (n : Numbering) (g : Id) : Numbering :=
  { n with last := n.last + 1, ids := n.ids.insert g (n.last + 1) }

/-- The numbers after a result and its edge were made. -/
def withResult (n : Numbering) (q : Request) (resultSet : Id) : Numbering :=
  q.record ((q.table n).insert resultSet (n.last + 1)) n.skip.skip

/-- The numbers after a package was made. -/
def withPackage (n : Numbering) (p : PackageInfo) : Numbering :=
  { n with last := n.last + 1, packages := n.packages.insert p (n.last + 1) }

/-- What has a number keeps it. -/
structure Within (n N : Numbering) : Prop where
  ids : ∀ g k, n.ids.get? g = some k → N.ids.get? g = some k
  results : ∀ (q : Request) resultSet k, (q.table n).get? resultSet = some k →
    (q.table N).get? resultSet = some k
  packages : ∀ p k, n.packages.get? p = some k → N.packages.get? p = some k

variable {n n' N : Numbering} {g : Id} {k : LineId}

theorem within_refl (n : Numbering) : n.Within n :=
  ⟨fun _ _ found => found, fun _ _ _ found => found, fun _ _ found => found⟩

theorem Within.trans (h : n.Within n') (h' : n'.Within N) : n.Within N :=
  ⟨fun g k found => h'.ids g k (h.ids g k found),
    fun q resultSet k found => h'.results q resultSet k (h.results q resultSet k found),
    fun p k found => h'.packages p k (h.packages p k found)⟩

theorem within_skip (n : Numbering) : n.Within n.skip := by
  refine ⟨fun _ _ found => found, fun q _ _ found => ?_, fun _ _ found => found⟩
  cases q <;> exact found

/-- A new key leaves the others alone. -/
theorem get?_insert_of_absent {κ : Type} [DecidableEq κ] {table : Table κ LineId} {key other : κ}
    (absent : table.get? key = none) (value : LineId) (found : table.get? other = some k) :
    (table.insert key value).get? other = some k := by
  rw [Table.get?_insert, if_neg]
  · exact found
  · rintro rfl
    simp [absent] at found

theorem within_name (absent : n.ids.get? g = none) : n.Within (n.name g) := by
  refine ⟨fun _ _ found => get?_insert_of_absent absent _ found, fun q _ _ found => ?_,
    fun _ _ found => found⟩
  cases q <;> exact found

theorem within_withResult {q : Request} (absent : (q.table n).get? g = none) :
    n.Within (n.withResult q g) := by
  cases q with
  | definition =>
      refine ⟨fun _ _ found => found, fun q' _ _ found => ?_, fun _ _ found => found⟩
      cases q' with
      | definition => exact get?_insert_of_absent absent _ found
      | references => exact found
  | references =>
      refine ⟨fun _ _ found => found, fun q' _ _ found => ?_, fun _ _ found => found⟩
      cases q' with
      | definition => exact found
      | references => exact get?_insert_of_absent absent _ found

theorem within_withPackage {p : PackageInfo} (absent : n.packages.get? p = none) :
    n.Within (n.withPackage p) := by
  refine ⟨fun _ _ found => found, fun q _ _ found => ?_,
    fun _ _ found => get?_insert_of_absent absent _ found⟩
  cases q <;> exact found

theorem number_of_found (found : n.ids.get? g = some k) : n.number g = k := by
  rw [number, found, Option.getD_some]

theorem Within.number (h : n.Within N) (found : n.ids.get? g = some k) : N.number g = k :=
  number_of_found (h.ids g k found)

theorem Within.map_number (h : n.Within N) {gs : List Id}
    (found : ∀ g ∈ gs, ∃ k, n.ids.get? g = some k) : gs.map N.number = gs.map n.number :=
  List.map_congr_left fun g member => by
    obtain ⟨k, here⟩ := found g member
    rw [h.number here, number_of_found here]

theorem Within.resultAt (h : n.Within N) {q : Request} (found : (q.table n).get? g = some k) :
    N.resultAt q g = k := by
  rw [Numbering.resultAt, h.results q g k found, Option.getD_some]

theorem Within.packageAt (h : n.Within N) {p : PackageInfo} (found : n.packages.get? p = some k) :
    N.packageAt p = k := by
  rw [Numbering.packageAt, h.packages p k found, Option.getD_some]

@[simp] theorem ids_withResult (q : Request) : (n.withResult q g).ids = n.ids := by
  cases q <;> rfl

@[simp] theorem last_withResult (q : Request) : (n.withResult q g).last = n.last + 2 := by
  cases q <;> rfl

@[simp] theorem packages_withResult (q : Request) : (n.withResult q g).packages = n.packages := by
  cases q <;> rfl

theorem table_withResult (q : Request) :
    q.table (n.withResult q g) = (q.table n).insert g (n.last + 1) := by
  cases q <;> rfl

theorem table_withResult_of_ne {q q' : Request} (other : q' ≠ q) :
    q'.table (n.withResult q g) = q'.table n := by
  cases q <;> cases q' <;> first | rfl | exact absurd rfl other

@[simp] theorem table_name (q : Request) : q.table (n.name g) = q.table n := by cases q <;> rfl

@[simp] theorem table_skip (q : Request) : q.table n.skip = q.table n := by cases q <;> rfl

@[simp] theorem table_withPackage (q : Request) (p : PackageInfo) :
    q.table (n.withPackage p) = q.table n := by cases q <;> rfl

/-- The elements with a number are those of the stream. -/
def Keyed (n : Numbering) (stream : List Element) : Prop :=
  ∀ g, (∃ k, n.ids.get? g = some k) ↔ g ∈ stream.map (·.id)

end Numbering

/-! ## Steps that write -/

namespace Lining

variable {α β : Type} {n n₁ n₂ : Numbering} {g : Id} {k : LineId}

/-- A step answers `a`, leaves the numbers `n'` and adds lines. -/
def Draws (n : Numbering) (m : Lining α) (a : α) (n' : Numbering) (new : List Line) : Prop :=
  ∀ lines, m (n, lines) = (a, n', lines ++ new)

theorem Draws.bind {m : Lining α} {f : α → Lining β} {a : α} {b : β} {new more : List Line}
    (first : Draws n m a n₁ new) (second : Draws n₁ (f a) b n₂ more) :
    Draws n (m >>= f) b n₂ (new ++ more) := by
  intro lines
  show f (m (n, lines)).1 (m (n, lines)).2 = _
  rw [first lines, second (lines ++ new), List.append_assoc]

theorem draws_pure (a : α) : Draws n (pure a) a n [] := fun lines => by
  rw [List.append_nil]
  rfl

theorem draws_write (l : Line) : Draws n (write l) () n [l] := fun _ => rfl

theorem draws_fresh : Draws n fresh (n.last + 1) n.skip [] := fun lines => by
  rw [List.append_nil]
  rfl

theorem draws_idOf (found : n.ids.get? g = some k) : Draws n (idOf g) k n [] := fun lines => by
  rw [List.append_nil, idOf]
  simp only [found]

theorem draws_idOf_new (absent : n.ids.get? g = none) :
    Draws n (idOf g) (n.last + 1) (n.name g) [] := fun lines => by
  rw [List.append_nil, idOf]
  simp only [absent]
  rfl

theorem draws_mapM_idOf {gs : List Id} (found : ∀ g ∈ gs, ∃ k, n.ids.get? g = some k) :
    Draws n (gs.mapM idOf) (gs.map n.number) n [] := by
  induction gs with
  | nil => exact draws_pure []
  | cons g gs ih =>
      obtain ⟨k, here⟩ := found g List.mem_cons_self
      have rest := ih fun other member => found other (List.mem_cons_of_mem _ member)
      rw [List.mapM_cons, List.map_cons, Numbering.number_of_found here]
      exact (draws_idOf here).bind (rest.bind (draws_pure _))

end Lining

/-! ## What an element writes -/

/-- The vertex of an element of the graph, if it is one. -/
def payload? : Body → Option Vertex
  | .metadata m => some (.metaData m.version m.projectRoot m.toolName m.toolVersion)
  | .project p => some (.project p.kind p.name)
  | .document d => some (.document d.uri d.languageId)
  | .resultSet _ => some .resultSet
  | .range r => some (.range r.span (Lining.tagOf r))
  | .moniker m => some (.moniker m.scheme m.identifier m.kind.name)
  | .hover contents => some (.hoverResult contents)
  | _ => none

/-- The edge of the dump for an edge of the graph that joins two elements. -/
def link? : Body → Option (Link × Id × Id)
  | .next outV inV => some (.next, outV, inV)
  | .monikerEdge outV inV => some (.moniker, outV, inV)
  | .hoverEdge outV inV => some (.hover, outV, inV)
  | _ => none

/-- The package of an element, if it has one: that is, one with a name. -/
def package? : Body → Option PackageInfo
  | .moniker m => if m.package.name = "" then none else some m.package
  | _ => none

/-- The vertex of a package. -/
def packageVertex (p : PackageInfo) : Vertex := .packageInformation p.name p.manager p.version

section Writes

variable (N n : Numbering)

/-- The lines for a result that is needed: its vertex and the edge to it, if there is none yet. -/
inductive Provides (q : Request) (resultSet : Id) : List Line → Numbering → Prop where
  | known (found : (q.table n).get? resultSet = some (N.resultAt q resultSet)) :
      Provides q resultSet [] n
  | made (absent : (q.table n).get? resultSet = none)
      (own : N.resultAt q resultSet = n.last + 1) :
      Provides q resultSet
        [.vertex (N.resultAt q resultSet) q.payload,
          .edge (n.last + 2) q.link (N.number resultSet) (N.resultAt q resultSet)]
        (n.withResult q resultSet)

/-- The line for a package that is needed, if there is none yet. -/
inductive Packs (p : PackageInfo) : List Line → Numbering → Prop where
  | known (found : n.packages.get? p = some (N.packageAt p)) : Packs p [] n
  | made (absent : n.packages.get? p = none) (own : N.packageAt p = n.last + 1) :
      Packs p [.vertex (N.packageAt p) (packageVertex p)] (n.withPackage p)

/-- The lines of an element, under the numbers that there will be. -/
inductive Writes : Element → List Line → Numbering → Prop where
  /-- A vertex that nothing comes with. -/
  | vertex {g : Id} {body : Body} {payload : Vertex} (shown : payload? body = some payload)
      (plain : ∀ r, body ≠ .range r) (bare : package? body = none)
      (own : N.number g = n.last + 1) :
      Writes ⟨g, body⟩ [.vertex (N.number g) payload] (n.name g)
  | range {g : Id} {r : Graph.Range} (own : N.number g = n.last + 1) :
      Writes ⟨g, .range r⟩
        [.vertex (N.number g) (.range r.span (Lining.tagOf r)),
          .edge (n.last + 2) .next (N.number g) (N.number r.resultSet)] (n.name g).skip
  | packed {g : Id} {m : Moniker} {made : List Line} {n' : Numbering}
      (named : m.package.name ≠ "") (own : N.number g = n.last + 1)
      (packs : Packs N (n.name g).skip m.package made n') :
      Writes ⟨g, .moniker m⟩
        (.vertex (N.number g) (.moniker m.scheme m.identifier m.kind.name) :: made ++
          [.edge (n.last + 2) .packageInformation (N.number g) (N.packageAt m.package)]) n'
  | link {g : Id} {body : Body} {link : Link} {outV inV : Id}
      (joins : link? body = some (link, outV, inV)) (own : N.number g = n.last + 1) :
      Writes ⟨g, body⟩ [.edge (N.number g) link (N.number outV) (N.number inV)] (n.name g)
  | contains {g outV : Id} {inVs : List Id} (own : N.number g = n.last + 1) :
      Writes ⟨g, .contains outV inVs⟩
        [.contains (N.number g) (N.number outV) (inVs.map N.number)] (n.name g)
  | definitions {g : Id} {i : Graph.Item} {first second : List Line} {n₁ n₂ : Numbering}
      (listed : i.property = .definitions) (references : Provides N n .references i.outV first n₁)
      (definitions : Provides N n₁ .definition i.outV second n₂)
      (own : N.number g = n₂.last + 1) :
      Writes ⟨g, .item i⟩
        (first ++ second ++
          [.item (N.number g) (N.resultAt .definition i.outV) (i.inVs.map N.number)
              (N.number i.document) "",
            .item (n₂.last + 2) (N.resultAt .references i.outV) (i.inVs.map N.number)
              (N.number i.document) i.property.name]) (n₂.name g).skip
  | references {g : Id} {i : Graph.Item} {first : List Line} {n₁ : Numbering}
      (listed : i.property ≠ .definitions) (references : Provides N n .references i.outV first n₁)
      (own : N.number g = n₁.last + 1) :
      Writes ⟨g, .item i⟩
        (first ++
          [.item (N.number g) (N.resultAt .references i.outV) (i.inVs.map N.number)
              (N.number i.document) i.property.name]) (n₁.name g)

end Writes

variable {N n n' : Numbering} {stream : List Element}

/-! ### Results and packages -/

theorem Provides.ids {q : Request} {resultSet : Id} {made : List Line}
    (h : Provides N n q resultSet made n') : n'.ids = n.ids := by
  cases h with
  | known => rfl
  | made => exact Numbering.ids_withResult q

theorem Packs.ids {p : PackageInfo} {made : List Line} (h : Packs N n p made n') :
    n'.ids = n.ids := by
  cases h with
  | known | made => rfl

namespace Lining

variable {k : LineId}

theorem run_get_bind {α : Type} (next : Numbering × List Line → Lining α)
    (s : Numbering × List Line) : (MonadState.get >>= next) s = next s s := rfl

section Results

variable {get : Numbering → Table Id LineId} {put : Table Id LineId → Numbering → Numbering}
  {payload : Vertex} {link : Link} {resultSet : Id}

/-- A result that is there is found. -/
theorem draws_resultOf_known {r : LineId} (known : (get n).get? resultSet = some r) :
    Draws n (resultOf get put payload link resultSet) r n [] := by
  intro lines
  rw [List.append_nil]
  simp only [resultOf, run_get_bind, known]
  rfl

/-- A result that is not there is made, with the edge that leads to it. -/
theorem draws_resultOf_new (absent : (get n).get? resultSet = none)
    (found : n.ids.get? resultSet = some k) :
    Draws n (resultOf get put payload link resultSet) (n.last + 1)
      (put ((get n.skip.skip).insert resultSet (n.last + 1)) n.skip.skip)
      [.vertex (n.last + 1) payload, .edge (n.last + 2) link k (n.last + 1)] := by
  have named : Draws n.skip.skip (idOf resultSet) k n.skip.skip [] := draws_idOf found
  have last : Draws n.skip.skip
      (modify fun s => (put ((get s.1).insert resultSet (n.last + 1)) s.1, s.2)) ()
      (put ((get n.skip.skip).insert resultSet (n.last + 1)) n.skip.skip) [] := fun lines => by
    rw [List.append_nil]
    rfl
  have made : Draws n (do
      let id ← fresh
      write (.vertex id payload)
      let edge ← fresh
      let outV ← idOf resultSet
      write (.edge edge link outV id)
      modify fun s => (put ((get s.1).insert resultSet id) s.1, s.2)
      return id) (n.last + 1) (put ((get n.skip.skip).insert resultSet (n.last + 1)) n.skip.skip)
        [.vertex (n.last + 1) payload, .edge (n.last + 2) link k (n.last + 1)] :=
    draws_fresh.bind (.bind (draws_write _) (draws_fresh.bind (named.bind
      (.bind (draws_write _) (last.bind (draws_pure _))))))
  intro lines
  simp only [resultOf, run_get_bind, absent]
  exact made lines

end Results

/-- A result that is needed is there or is made. -/
theorem draws_result (q : Request) {resultSet : Id} (found : n.ids.get? resultSet = some k) :
    ∃ r made n', Draws n (q.result resultSet) r n' made ∧
      (q.table n').get? resultSet = some r ∧ n.Within n' ∧
      ∀ N : Numbering, n'.Within N → Provides N n q resultSet made n' := by
  cases known : (q.table n).get? resultSet with
  | some r =>
      exact ⟨r, [], n, draws_resultOf_known known, known, Numbering.within_refl n, fun N within =>
        .known (known.trans (congrArg some (within.resultAt known).symm))⟩
  | none =>
      have table : q.table n.skip.skip = q.table n := by
        rw [Numbering.table_skip, Numbering.table_skip]
      have made : Draws n (resultOf q.table q.record q.payload q.link resultSet) (n.last + 1) _ _ :=
        draws_resultOf_new known found
      have stands : (q.table (n.withResult q resultSet)).get? resultSet = some (n.last + 1) := by
        rw [Numbering.table_withResult]
        exact Table.get?_insert_self _ _ _
      rw [table] at made
      refine ⟨_, _, n.withResult q resultSet, made, stands, Numbering.within_withResult known,
        fun N within => ?_⟩
      have from_ : N.number resultSet = k := within.number (by
        rw [Numbering.ids_withResult]
        exact found)
      rw [← from_, ← within.resultAt stands]
      exact .made known (within.resultAt stands)

/-- A package that is needed is there or is made. -/
theorem draws_packageOf (n : Numbering) (p : PackageInfo) :
    ∃ r made n', Draws n (packageOf p) r n' made ∧ n'.packages.get? p = some r ∧ n.Within n' ∧
      ∀ N : Numbering, n'.Within N → Packs N n p made n' := by
  cases known : n.packages.get? p with
  | some r =>
      refine ⟨r, [], n, fun lines => ?_, known, Numbering.within_refl n, fun N within =>
        .known (known.trans (congrArg some (within.packageAt known).symm))⟩
      rw [List.append_nil]
      simp only [packageOf, run_get_bind, known]
      rfl
  | none =>
      have stands : (n.withPackage p).packages.get? p = some (n.last + 1) :=
        Table.get?_insert_self _ _ _
      refine ⟨n.last + 1, [.vertex (n.last + 1) (packageVertex p)], n.withPackage p,
        fun lines => ?_, stands, Numbering.within_withPackage known, fun N within => ?_⟩
      · simp only [packageOf, run_get_bind, known]
        rfl
      · rw [← within.packageAt stands]
        exact .made known (within.packageAt stands)

end Lining

/-! ### Elements -/

open Lining

/-- An element writes its lines. -/
def Lined (n : Numbering) (e : Element) : Prop :=
  ∃ lining new n', Lining.element? e = some lining ∧ Draws n lining () n' new ∧ n.Within n' ∧
    ∀ N : Numbering, n'.Within N → Writes N n e new n'

section Lined

variable {g : Id}

/-- The number that the next element gets. -/
theorem number_name (within : (n.name g).Within N) : N.number g = n.last + 1 :=
  within.number (Table.get?_insert_self _ _ _)

theorem lined_vertex {body : Body} {payload : Vertex} (absent : n.ids.get? g = none)
    (shown : payload? body = some payload) (plain : ∀ r, body ≠ .range r)
    (bare : package? body = none) {lining : Lining Unit}
    (same : Lining.element? ⟨g, body⟩ = some lining)
    (draws : Draws n lining () (n.name g) [.vertex (n.last + 1) payload]) : Lined n ⟨g, body⟩ := by
  refine ⟨_, _, n.name g, same, draws, Numbering.within_name absent, fun N within => ?_⟩
  rw [← number_name within]
  exact .vertex shown plain bare (number_name within)

theorem lined_range {r : Graph.Range} {k : LineId} (absent : n.ids.get? g = none)
    (owner : n.ids.get? r.resultSet = some k) : Lined n ⟨g, .range r⟩ := by
  have grown := Numbering.within_name absent
  have later := Numbering.within_skip (n.name g)
  have self : (n.name g).skip.ids.get? g = some (n.last + 1) := Table.get?_insert_self _ _ _
  refine ⟨_, _, (n.name g).skip, rfl, .bind ((draws_idOf_new absent).bind (draws_write _))
    (draws_fresh.bind (.bind (draws_idOf self) (.bind (draws_idOf (grown.ids _ _ owner))
      (draws_write _)))), grown.trans later, fun N within => ?_⟩
  have own := number_name (later.trans within)
  rw [← own, ← (later.trans within).number (grown.ids _ _ owner)]
  exact .range own

theorem lined_moniker {m : Moniker} (absent : n.ids.get? g = none) : Lined n ⟨g, .moniker m⟩ := by
  have grown := Numbering.within_name absent
  have named := draws_idOf_new absent
  by_cases unnamed : m.package.name = ""
  · refine lined_vertex absent rfl (fun _ => nofun) (if_pos unnamed) rfl ?_
    rw [writeMoniker]
    simp only [unnamed, if_true]
    exact named.bind (.bind (draws_write _) (draws_pure ()))
  · obtain ⟨r, made, n', packed, stands, later, packs⟩ := draws_packageOf (n.name g).skip m.package
    have later := (Numbering.within_skip _).trans later
    refine ⟨_, .vertex (n.last + 1) (.moniker m.scheme m.identifier m.kind.name) :: made ++
      [.edge (n.last + 2) .packageInformation (n.last + 1) r], n', rfl, ?_, grown.trans later,
      fun N within => ?_⟩
    · rw [writeMoniker]
      simp only [unnamed, if_false]
      exact named.bind (.bind (draws_write _) (draws_fresh.bind (packed.bind (draws_write _))))
    · have own := number_name (later.trans within)
      rw [← own, ← within.packageAt stands]
      exact .packed unnamed own (packs N within)

theorem lined_contains {outV : Id} {inVs : List Id} {k : LineId} (absent : n.ids.get? g = none)
    (origin : n.ids.get? outV = some k) (parts : ∀ h ∈ inVs, ∃ k, n.ids.get? h = some k) :
    Lined n ⟨g, .contains outV inVs⟩ := by
  have grown := Numbering.within_name absent
  have parts' : ∀ h ∈ inVs, ∃ k, (n.name g).ids.get? h = some k := fun h member => by
    obtain ⟨k, found⟩ := parts h member
    exact ⟨k, grown.ids _ _ found⟩
  have origin' := grown.ids _ _ origin
  refine ⟨_, _, n.name g, rfl, (draws_idOf_new absent).bind (.bind (draws_idOf origin')
    (.bind (draws_mapM_idOf parts') (draws_write _))), grown, fun N within => ?_⟩
  rw [← number_name within, ← within.number origin', ← within.map_number parts']
  exact .contains (number_name within)

theorem lined_link {body : Body} {link : Link} {outV inV : Id} {j k : LineId}
    (absent : n.ids.get? g = none) (joins : link? body = some (link, outV, inV))
    (origin : n.ids.get? outV = some j) (target : n.ids.get? inV = some k)
    (same : Lining.element? ⟨g, body⟩ = some (writeEdge g link outV inV)) : Lined n ⟨g, body⟩ := by
  have grown := Numbering.within_name absent
  have origin' := grown.ids _ _ origin
  have target' := grown.ids _ _ target
  refine ⟨_, _, n.name g, same, (draws_idOf_new absent).bind (.bind (draws_idOf origin')
    (.bind (draws_idOf target') (draws_write _))), grown, fun N within => ?_⟩
  rw [← number_name within, ← within.number origin', ← within.number target']
  exact .link joins (number_name within)

theorem lined_item {i : Graph.Item} {j k : LineId} (absent : n.ids.get? g = none)
    (owner : n.ids.get? i.outV = some j) (home : n.ids.get? i.document = some k)
    (parts : ∀ h ∈ i.inVs, ∃ k, n.ids.get? h = some k) : Lined n ⟨g, .item i⟩ := by
  obtain ⟨r, first, n₁, asked, stands, later, provides⟩ := draws_result .references owner
  have ids₁ : n₁.ids = n.ids := (provides n₁ (Numbering.within_refl n₁)).ids
  by_cases listed : i.property = .definitions
  · obtain ⟨d, second, n₂, asked₂, stands₂, later₂, provides₂⟩ :=
      draws_result .definition (show n₁.ids.get? i.outV = some j from ids₁ ▸ owner)
    have ids₂ : n₂.ids = n₁.ids := (provides₂ n₂ (Numbering.within_refl n₂)).ids
    have absent₂ : n₂.ids.get? g = none := by rw [ids₂, ids₁, absent]
    have after := (Numbering.within_name absent₂).trans (Numbering.within_skip (n₂.name g))
    have both : Draws n₂ (do
        write (.item (← idOf g) d (i.inVs.map n.number) k "")
        write (.item (← fresh) r (i.inVs.map n.number) k Graph.Property.definitions.name)) ()
        (n₂.name g).skip
        [.item (n₂.last + 1) d (i.inVs.map n.number) k "",
          .item (n₂.last + 2) r (i.inVs.map n.number) k Graph.Property.definitions.name] :=
      (draws_idOf_new absent₂).bind (.bind (draws_write _) (draws_fresh.bind (draws_write _)))
    refine ⟨_, first ++ second ++ [.item (n₂.last + 1) d (i.inVs.map n.number) k "",
      .item (n₂.last + 2) r (i.inVs.map n.number) k i.property.name], (n₂.name g).skip, rfl, ?_,
      later.trans (later₂.trans after), fun N within => ?_⟩
    · rw [writeItem, listed, List.append_assoc]
      exact (draws_idOf home).bind ((draws_mapM_idOf parts).bind (asked.bind (asked₂.bind both)))
    · have within₂ := after.trans within
      have within₁ := later₂.trans within₂
      have own := number_name ((Numbering.within_skip _).trans within)
      rw [← own, ← within₂.resultAt stands₂, ← within₁.resultAt stands,
        ← (later.trans within₁).number home, ← (later.trans within₁).map_number parts]
      exact .definitions listed (provides N within₁) (provides₂ N within₂) own
  · have absent₁ : n₁.ids.get? g = none := by rw [ids₁, absent]
    have after := Numbering.within_name absent₁
    have one : Draws n₁ (do write (.item (← idOf g) r (i.inVs.map n.number) k i.property.name)) ()
        (n₁.name g) [.item (n₁.last + 1) r (i.inVs.map n.number) k i.property.name] :=
      (draws_idOf_new absent₁).bind (draws_write _)
    refine ⟨_, first ++ [.item (n₁.last + 1) r (i.inVs.map n.number) k i.property.name], n₁.name g,
      rfl, ?_, later.trans after, fun N within => ?_⟩
    · rw [writeItem]
      cases property : i.property with
      | definitions => exact absurd property listed
      | references | other =>
          rw [property] at one
          exact (draws_idOf home).bind ((draws_mapM_idOf parts).bind (asked.bind one))
    · have within₁ := after.trans within
      rw [← number_name within, ← within₁.resultAt stands, ← (later.trans within₁).number home,
        ← (later.trans within₁).map_number parts]
      exact .references listed (provides N within₁) (number_name within)

end Lined

/-- **An element writes its lines**, if it has no number yet and what it mentions has one. -/
theorem lined {e : Element} (known : e.body.IsKnown) (absent : n.ids.get? e.id = none)
    (mentioned : ∀ g ∈ e.body.mentions, ∃ k, n.ids.get? g = some k) : Lined n e := by
  obtain ⟨g, body⟩ := e
  cases body with
  | metadata | project | document | resultSet | hover =>
      exact lined_vertex absent rfl (fun _ => nofun) rfl rfl
        ((draws_idOf_new absent).bind (draws_write _))
  | range r =>
      obtain ⟨_, owner⟩ := mentioned r.resultSet (by simp [Body.mentions])
      exact lined_range absent owner
  | moniker => exact lined_moniker absent
  | contains outV inVs =>
      obtain ⟨_, origin⟩ := mentioned outV (by simp [Body.mentions])
      exact lined_contains absent origin fun h member => mentioned h (by simp [Body.mentions, member])
  | item i =>
      obtain ⟨_, owner⟩ := mentioned i.outV (by simp [Body.mentions])
      obtain ⟨_, home⟩ := mentioned i.document (by simp [Body.mentions])
      exact lined_item absent owner home fun h member => mentioned h (by simp [Body.mentions, member])
  | next outV inV | monikerEdge outV inV | hoverEdge outV inV =>
      obtain ⟨_, origin⟩ := mentioned outV (by simp [Body.mentions])
      obtain ⟨_, target⟩ := mentioned inV (by simp [Body.mentions])
      exact lined_link absent rfl origin target rfl
  | foreign => exact absurd known not_false

/-! ## Dumps -/

/-- The numbers after a stream and the lines that were written. -/
def dump (stream : List Element) : Numbering × List Line :=
  stream.foldl (fun state e => ((Lining.element? e).map fun lining => (lining state).2).getD state)
    ({}, [])

/-- A stream is written element by element, each under the numbers that there will be. -/
inductive Dumped (N : Numbering) : List Element → Numbering → List Line → Prop where
  | nil : Dumped N [] {} []
  | snoc {stream : List Element} {e : Element} {n n' : Numbering} {lines new : List Line}
      (before : Dumped N stream n lines) (fresh : e.id ∉ stream.map (·.id))
      (mentioned : ∀ g ∈ e.body.mentions, g ∈ stream.map (·.id)) (writes : Writes N n e new n') :
      Dumped N (stream ++ [e]) n' (lines ++ new)

/-- An element has the number that it is written under, and no other number changes. -/
theorem Writes.ids {e : Element} {new : List Line} (h : Writes N n e new n') :
    n'.ids = n.ids.insert e.id (N.number e.id) := by
  cases h with
  | vertex _ _ _ own | range own | link _ own | contains own =>
      rw [own]
      rfl
  | packed _ own packs =>
      rw [packs.ids, own]
      rfl
  | definitions _ references definitions own =>
      rw [own, ← references.ids, ← definitions.ids]
      rfl
  | references _ references own =>
      rw [own, ← references.ids]
      rfl

/-- The elements with a number are those of the stream, and it is the one that there will be. -/
theorem Dumped.keyed {lines : List Line} (h : Dumped N stream n lines) (g : Id) :
    n.ids.get? g = if g ∈ stream.map (·.id) then some (N.number g) else none := by
  induction h with
  | nil => rfl
  | @snoc stream e _ _ _ _ _ _ _ writes ih =>
      rw [writes.ids, Table.get?_insert, ih]
      by_cases same : e.id = g
      · subst same
        simp
      · simp [same, Ne.symm same]

/-- The next element of a dump writes its lines. -/
theorem Dumped.lined {lines : List Line} (h : Dumped N stream n lines) {e : Element}
    (next : Graph.Backward (stream ++ [e])) : Lined n e := by
  obtain ⟨fresh, known, mentioned⟩ := next.last
  refine Lsif.lined known (by rw [h.keyed, if_neg fresh]) fun g member => ⟨N.number g, ?_⟩
  rw [h.keyed, if_pos (mentioned g member)]

theorem dump_snoc {e : Element} {lining : Lining Unit} {new : List Line}
    (same : Lining.element? e = some lining) (draws : Draws (dump stream).1 lining () n' new) :
    dump (stream ++ [e]) = (n', (dump stream).2 ++ new) := by
  rw [dump, List.foldl_append, ← dump]
  simp only [List.foldl_cons, List.foldl_nil, same, Option.map_some, Option.getD_some]
  rw [show lining (dump stream) = _ from draws (dump stream).2]

/-- **A stream that is fit to be dumped is dumped**: the lines of each element are added, under
whatever numbers there will be. -/
theorem dumped_of_within (h : Graph.Backward stream) :
    ∀ N : Numbering, (dump stream).1.Within N → Dumped N stream (dump stream).1 (dump stream).2 := by
  induction stream using List.reverseRecOn with
  | nil => exact fun N _ => .nil
  | append_singleton stream e ih =>
      obtain ⟨fresh, -, mentioned⟩ := h.last
      have before := ih h.of_append
      obtain ⟨lining, new, n', same, draws, later, writes⟩ :=
        (before _ (Numbering.within_refl _)).lined h
      rw [dump_snoc same draws]
      exact fun N within => .snoc (before N (later.trans within)) fresh mentioned (writes N within)

/-- **A dump in terms of the numbers that it ends with.** -/
theorem dumped (h : Graph.Backward stream) :
    Dumped (dump stream).1 stream (dump stream).1 (dump stream).2 :=
  dumped_of_within h _ (Numbering.within_refl _)

end Lsif
end SymbolAtlas
