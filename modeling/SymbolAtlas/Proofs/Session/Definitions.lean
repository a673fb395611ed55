/-
# SymbolAtlas.Proofs.Session.Definitions -- every declaration is defined once

Definitions come from two places.  A declaration in a file that the run does not visit is
recorded when its symbol gets a node, and one in a file of the run when the run comes upon its
name, which may be before or after another file has asked for the symbol.  Both write down
the place, and neither records a definition at a place that is written down.

`SymbolNode.Attested` ties what is written down to the stream: the definitions of a symbol are
those at its recorded places, one each, in the document of the place.  With what nodes know of
their declarations (`marked_performed`) that gives `run_definitions`.
-/
import SymbolAtlas.Proofs.Session.Lifecycle
import SymbolAtlas.Proofs.Session.Marks

set_option autoImplicit false

namespace SymbolAtlas

open SymbolAtlas.Graph (Id Element)

namespace Graph

/-- The range of a definition. -/
def Body.IsDefinition : Body → Prop
  | .range r => r.role = .definition
  | _ => False

/-- The definitions of a symbol, in the order of the stream. -/
def definitionsOf (resultSet : Id) (stream : List Element) : List Range :=
  stream.filterMap fun e => match e.body with
    | .range r => if r.role = .definition ∧ r.resultSet = resultSet then some r else none
    | _ => none

@[simp] theorem definitionsOf_append (resultSet : Id) (stream more : List Element) :
    definitionsOf resultSet (stream ++ more) =
      definitionsOf resultSet stream ++ definitionsOf resultSet more := by
  simp [definitionsOf]

theorem definitionsOf_singleton (resultSet id : Id) (r : Range) :
    definitionsOf resultSet [⟨id, .range r⟩] =
      if r.role = .definition ∧ r.resultSet = resultSet then [r] else [] := by
  unfold definitionsOf
  by_cases own : r.role = .definition ∧ r.resultSet = resultSet <;> simp [own]

theorem mem_definitionsOf {resultSet : Id} {stream : List Element} {r : Range} :
    r ∈ definitionsOf resultSet stream ↔
      r.role = .definition ∧ r.resultSet = resultSet ∧ ∃ id, ⟨id, .range r⟩ ∈ stream := by
  simp only [definitionsOf, List.mem_filterMap]
  constructor
  · rintro ⟨⟨id, body⟩, member, found⟩
    cases body with
    | range r' =>
        simp only [Option.ite_none_right_eq_some, Option.some.injEq] at found
        obtain ⟨⟨role, home⟩, rfl⟩ := found
        exact ⟨role, home, id, member⟩
    | _ => exact absurd found (by simp)
  · rintro ⟨role, home, id, member⟩
    exact ⟨_, member, by simp [role, home]⟩

theorem definitionsOf_of_none {more : List Element}
    (none : ∀ e ∈ more, ¬ e.body.IsDefinition) (resultSet : Id) :
    definitionsOf resultSet more = [] := by
  refine List.eq_nil_iff_forall_not_mem.2 fun r member => ?_
  obtain ⟨role, -, id, inside⟩ := mem_definitionsOf.1 member
  exact none _ inside role

/-- A number that is not given yet has no definitions. -/
theorem Ordered.definitionsOf_of_lt {stream : List Element} (h : Ordered stream) {resultSet : Id}
    (beyond : (stream.length : Int) < resultSet) : definitionsOf resultSet stream = [] := by
  refine List.eq_nil_iff_forall_not_mem.2 fun r member => ?_
  obtain ⟨-, rfl, id, inside⟩ := mem_definitionsOf.1 member
  exact absurd beyond (Int.not_lt.2 (h.holds_le (h.linked inside).2))

end Graph

namespace Session

/-! ## Places and definitions -/

/-- A definition stands at a place. -/
def Site.Holds (documents : Table String DocumentNode) (site : Site) (r : Graph.Range) : Prop :=
  r.span = site.span ∧ ∃ d, documents.get? site.file = some d ∧ r.document = d.id

/-- The definitions of a symbol are those at the places that its node has on record. -/
structure SymbolNode.Attested (stream : List Element) (documents : Table String DocumentNode)
    (n : SymbolNode) : Prop where
  once : n.recorded.Nodup
  ranges : List.Forall₂ (Site.Holds documents) n.recorded.reverse
    (Graph.definitionsOf n.resultSet stream)

theorem Site.Holds.mono {documents documents' : Table String DocumentNode} {site : Site}
    {r : Graph.Range} (h : site.Holds documents r) (same : SameIds documents documents') :
    site.Holds documents' r := by
  obtain ⟨span, d, document, home⟩ := h
  obtain ⟨d', document', number⟩ := same site.file d document
  exact ⟨span, d', document', home.trans number.symm⟩

/-- Elements that are no definitions change nothing. -/
theorem SymbolNode.Attested.grow {stream more : List Element}
    {documents documents' : Table String DocumentNode} {n : SymbolNode}
    (h : n.Attested stream documents) (none : Graph.definitionsOf n.resultSet more = [])
    (same : SameIds documents documents') : n.Attested (stream ++ more) documents' := by
  refine ⟨h.once, ?_⟩
  rw [Graph.definitionsOf_append, none, List.append_nil]
  exact h.ranges.imp fun _ _ holds => holds.mono same

theorem countP_of_forall₂ {α β : Type} {R : α → β → Prop} {p : α → Bool} {q : β → Bool}
    {as : List α} {bs : List β} (h : List.Forall₂ R as bs) (same : ∀ a b, R a b → p a = q b) :
    as.countP p = bs.countP q := by
  induction h with
  | nil => rfl
  | cons first _ ih => rw [List.countP_cons, List.countP_cons, ih, same _ _ first]

/-- The document of a place on record exists. -/
theorem SymbolNode.Attested.document {stream : List Element}
    {documents : Table String DocumentNode} {n : SymbolNode} (h : n.Attested stream documents)
    {site : Site} (member : site ∈ n.recorded) : ∃ d, documents.get? site.file = some d := by
  obtain ⟨i, bound, rfl⟩ := List.getElem_of_mem (List.mem_reverse.2 member)
  have holds := h.ranges.get bound (h.ranges.length_eq ▸ bound)
  obtain ⟨-, d, document, -⟩ := holds
  exact ⟨d, document⟩

/-- A definition stands at a place on record. -/
theorem SymbolNode.Attested.site {stream : List Element} {documents : Table String DocumentNode}
    {n : SymbolNode} (h : n.Attested stream documents) {r : Graph.Range}
    (defined : r ∈ Graph.definitionsOf n.resultSet stream) :
    ∃ site ∈ n.recorded, site.Holds documents r := by
  obtain ⟨i, bound, rfl⟩ := List.getElem_of_mem defined
  have bound' := h.ranges.length_eq.symm ▸ bound
  exact ⟨_, List.mem_reverse.1 (List.getElem_mem bound'), h.ranges.get bound' bound⟩

/-- **One definition stands at each place on record.** -/
theorem SymbolNode.Attested.count {l : Shelf} {n : SymbolNode}
    (h : n.Attested l.stream l.documents) (sorted : l.Sorted) (ordered : Graph.Ordered l.stream)
    {site : Site} {d : DocumentNode} (document : l.documents.get? site.file = some d)
    (member : site ∈ n.recorded) :
    (Graph.definitionsOf n.resultSet l.stream).countP
      (fun r => r.document = d.id ∧ r.span = site.span) = 1 := by
  have counted : n.recorded.reverse.countP (fun other => other = site) = 1 := by
    rw [List.countP_reverse]
    exact List.count_eq_one_of_mem h.once member
  rw [← counted]
  refine (countP_of_forall₂ h.ranges ?_).symm
  rintro ⟨file, span⟩ r ⟨here, d', document', home⟩
  refine decide_eq_decide.2 ⟨?_, ?_⟩
  · rintro rfl
    obtain rfl := Option.some.inj (document.symm.trans document')
    exact ⟨home, here⟩
  · rintro ⟨same, there⟩
    have path := sorted.path_unique ordered document' document (home.symm.trans same)
    obtain rfl : file = site.file := path
    obtain rfl : span = site.span := here.symm.trans there
    rfl

/-! ## Steps -/

section Steps

variable {μ ω : Type} {c : Context μ ω} {view : ω → List Element} {start : μ} {seen : List Site}
  {s s' : State μ ω}

/-- Every symbol is attested. -/
def State.Attested (view : ω → List Element) (s : State μ ω) : Prop :=
  s.symbols.All fun _ n => n.Attested (view s.output) s.documents

/-- Elements that are no definitions may be added. -/
theorem State.Attested.grow (h : s.Attested view) {more : List Element}
    (seen : view s'.output = view s.output ++ more) (none : ∀ e ∈ more, ¬ e.body.IsDefinition)
    (same : SameIds s.documents s'.documents) :
    s.symbols.All fun _ n => n.Attested (view s'.output) s'.documents := by
  refine h.imp fun _ n _ attested => ?_
  rw [seen]
  exact attested.grow (Graph.definitionsOf_of_none none n.resultSet) same

/-- Nodes whose definitions stay what they are, when nothing is emitted. -/
theorem State.Attested.still (h : s.Attested view) (seen : view s'.output = view s.output)
    (same : SameIds s.documents s'.documents) :
    s.symbols.All fun _ n => n.Attested (view s'.output) s'.documents :=
  h.grow (by rw [seen, List.append_nil]) (by simp) same

/-- A definition is recorded at a place in its file. -/
theorem attested_defined (records : c.sink.Records view) {key path : String} {n : SymbolNode}
    {d : DocumentNode} {declaration name : Node} (filed : s.Filed view) (h : s.Attested view)
    (node : s.symbols.get? key = some n) (document : s.documents.get? path = some d)
    (new : Site.ofNode name ∉ n.recorded) (own : name.file = path)
    (ok : (s.defined c key path n d declaration name).failure = none) :
    (s.defined c key path n d declaration name).Attested view := by
  have stream : view (s.defined c key path n d declaration name).output = _ :=
    view_emitted records ok
  have same : SameIds s.documents (s.defined c key path n d declaration name).documents :=
    sameIds_modify _ _ fun _ => rfl
  intro key' n' node'
  rw [stream]
  have node' : (s.symbols.modify key _).get? key' = some n' := node'
  rw [Table.get?_modify] at node'
  split at node'
  · rename_i here
    subst here
    rw [node] at node'
    obtain rfl := Option.some.inj node'
    obtain ⟨once, ranges⟩ := h key n node
    refine ⟨List.nodup_cons.2 ⟨new, once⟩, ?_⟩
    rw [List.reverse_cons, Graph.definitionsOf_append, Graph.definitionsOf_singleton,
      if_pos ⟨rfl, rfl⟩]
    refine List.rel_append (ranges.imp fun _ _ holds => holds.mono same) ?_
    refine .cons ⟨rfl, ?_⟩ .nil
    obtain ⟨d', document', number⟩ := same path d document
    exact ⟨d', own.symm ▸ document', number.symm⟩
  · rename_i other
    have apart : n.resultSet ≠ n'.resultSet := fun both =>
      other (filed.accounted.key_unique filed.ordered node node' both)
    refine (h key' n' node').grow ?_ same
    rw [Graph.definitionsOf_singleton, if_neg fun both => apart both.2]

theorem Detail.attested (records : c.sink.Records view) (anchored : c.oracle.Anchored start)
    (step : Detail c s s') (filed : s.Filed view) (rooted : s.Rooted c start seen)
    (h : s.Attested view) (ok : s'.failure = none) : s'.Attested view := by
  obtain ⟨-, -, same⟩ := (Details.steps (.single step)).filed records filed ok
  cases step with
  | asked | counted | awaited | confined => exact h.still rfl same
  | sited => exact Table.All.modify (h.still rfl same) fun _ _ a => ⟨a.once, a.ranges⟩
  | began | joined =>
      exact h.grow (view_emitted records ok) (by simp [Graph.Body.IsDefinition]) same
  | @attached key n m =>
      have first : (s.emitted c (.moniker m)).failure = none := failure_none_of_emitted ok
      have stream : view (s.attached c key n m).output = _ := view_emitted records ok
      rw [view_emitted records first, List.append_assoc] at stream
      exact Table.All.modify (h.grow stream (by simp [Graph.Body.IsDefinition]) same)
        fun _ _ a => ⟨a.once, a.ranges⟩
  | @hovered key n contents =>
      have first : (s.emitted c (.hover contents)).failure = none := failure_none_of_emitted ok
      have stream := view_emitted records ok
      rw [view_emitted records first, List.append_assoc] at stream
      exact h.grow stream (by simp [Graph.Body.IsDefinition]) same
  | @defined key path n d declaration name node open_ document writable new early =>
      obtain ⟨⟨id, chosen, rfl⟩, rfl, rfl, outside⟩ := early
      have own := file_siteIn anchored ((rooted.nodes key n node).shown id chosen)
      exact attested_defined records filed h node document new own ok

theorem attested_enrolled (records : c.sink.Records view) {sym : Symbol} {v : Variant}
    {declarations : List NodeId} {name : SymbolName} {namer : Namer} {memory : μ}
    (filed : s.Filed view) (h : s.Attested view)
    (ok : (s.enrolled c sym v declarations name namer memory).failure = none) :
    (s.enrolled c sym v declarations name namer memory).Attested view := by
  have stream : view (s.enrolled c sym v declarations name namer memory).output = _ :=
    view_emitted records ok
  refine Table.All.insert ?_ ⟨List.nodup_nil, ?_⟩
  · exact h.grow stream (by simp [Graph.Body.IsDefinition]) (.refl _)
  · have beyond : ((view s.output).length : Int) < s.lastId + 1 := by
      rw [filed.traced.count]
      exact Int.lt_succ _
    have none : Graph.definitionsOf (s.lastId + 1)
        (view (s.enrolled c sym v declarations name namer memory).output) = [] := by
      rw [stream, Graph.definitionsOf_append, filed.ordered.definitionsOf_of_lt beyond]
      rfl
    exact List.forall₂_nil_left_iff.2 none

/-- **What details and new nodes keep, foundings keep**, as long as nothing is refused. -/
theorem Foundings.keeps (records : c.sink.Records view) (anchored : c.oracle.Anchored start)
    {Q : State μ ω → Prop}
    (detail : ∀ t t', Detail c t t' → t.Filed view → t.Rooted c start seen → t'.failure = none →
      Q t → Q t')
    (growth : ∀ t t', Growth c t t' → t.Filed view → t.Rooted c start seen → t'.failure = none →
      Q t → Q t')
    {use : Option NodeId} (foundings : Foundings c start use s s')
    (use_shown : ∀ id ∈ use, c.oracle.Shown start s.memory id) (filed : s.Filed view)
    (rooted : s.Rooted c start seen) (h : Q s) (ok : s'.failure = none) : Q s' := by
  have details : ∀ {t t' : State μ ω}, Details c t t' → t.Filed view → t.Rooted c start seen →
      t'.failure = none → Q t → Q t' := by
    intro t t' details filed rooted ok h
    induction details with
    | refl => exact h
    | tail before last ih =>
        have ok' := last.failure_none ok
        obtain ⟨filed', -, -⟩ := (Details.steps before).filed records filed ok'
        exact detail _ _ last filed' (Details.rooted anchored before rooted) ok (ih ok')
  induction foundings with
  | refl => exact h
  | tail before last ih =>
      have okT := last.moves.steps.failure_none ok
      have steps := (Foundings.moves before).steps
      obtain ⟨filedT, -, -⟩ := steps.filed records filed okT
      have rootedT := Foundings.rooted anchored before use_shown rooted
      cases last with
      | move move _ =>
          cases move with
          | detail step => exact detail _ _ step filedT rootedT ok (ih okT)
          | growth step => exact growth _ _ step filedT rootedT ok (ih okT)
      | made _ fresh classified declared called more notes =>
          have step : Growth c _ _ := .enrolled fresh classified declared called
          have ok' := more.steps.failure_none ok
          obtain ⟨filed', -, -⟩ := Steps.filed records (.single (.growth step)) filedT ok'
          have rooted' := rooted_enrolled anchored rootedT
            (fun id same => (use_shown id same).later steps.later) fresh classified declared called
          exact details more filed' rooted' ok (growth _ _ step filedT rootedT ok' (ih okT))

theorem Growth.attested (records : c.sink.Records view) (step : Growth c s s')
    (filed : s.Filed view) (h : s.Attested view) (ok : s'.failure = none) : s'.Attested view := by
  cases step with
  | enrolled => exact attested_enrolled records filed h ok
  | based | composed => exact Table.All.modify h fun _ _ a => ⟨a.once, a.ranges⟩

theorem Foundings.attested (records : c.sink.Records view) (anchored : c.oracle.Anchored start)
    {use : Option NodeId} (foundings : Foundings c start use s s')
    (use_shown : ∀ id ∈ use, c.oracle.Shown start s.memory id) (filed : s.Filed view)
    (rooted : s.Rooted c start seen) (h : s.Attested view) (ok : s'.failure = none) :
    s'.Attested view := by
  refine foundings.keeps records anchored (Q := fun t => t.Attested view) ?_ ?_ use_shown filed
    rooted h ok
  · exact fun _ _ step filed rooted ok h => step.attested records anchored filed rooted h ok
  · exact fun _ _ step filed _ ok h => step.attested records filed h ok

theorem Recorded.attested (records : c.sink.Records view) (anchored : c.oracle.Anchored start)
    {path key : String} {name : Node} {file : Tree} (recorded : Recorded c path key name s s')
    (indexed : file ∈ c.oracle.files) (inside : name ∈ file.nodes) (own : name.file = path)
    (filed : s.Filed view) (rooted : s.Rooted c start seen) (h : s.Attested view)
    (ok : s'.failure = none) : s'.Attested view := by
  cases recorded with
  | known => exact h
  | defined node open_ document writable definition found new =>
      have here := siteIn_found anchored rooted indexed inside node definition found
      exact attested_defined records filed h node document new
        ((congrArg Site.file here).trans own) ok
  | @referred n d node open_ document writable reference =>
      obtain ⟨symbols, shape⟩ := State.foldl_forwarded_eq path d.id (s.lastId + 1)
        (n.forwards key) (s.referred c key path n d name)
      have first : (s.referred c key path n d name).failure = none := by
        rw [shape] at ok
        exact ok
      have stream : view (s.referred c key path n d name).output = _ := view_emitted records first
      have same : SameIds s.documents (s.referred c key path n d name).documents :=
        sameIds_modify _ _ fun _ => rfl
      have grown := h.grow stream (by simp [Graph.Body.IsDefinition]) same
      have nodes := all_foldl_forwarded path d.id (s.lastId + 1) (n.forwards key)
        (s := s.referred c key path n d name)
        (Table.All.modify grown fun _ _ a => ⟨a.once, a.ranges⟩) fun _ _ a => ⟨a.once, a.ranges⟩
      rw [shape] at nodes ⊢
      exact nodes

theorem Ending.attested (records : c.sink.Records view) (ending : Ending c s s')
    (filed : s.Filed view) (h : s.Attested view) (ok : s'.failure = none) : s'.Attested view := by
  obtain ⟨-, -, same⟩ := Steps.filed records (.single (.ending ending)) filed ok
  cases ending with
  | @symbol key n node open_ =>
      have taken : (s.emittedAll c (n.items.map .item)).failure = none := ok
      obtain ⟨added, stream, items⟩ := view_emittedAll records taken
      have none : ∀ e ∈ added, ¬ e.body.IsDefinition := by
        intro e member
        have item : e.body ∈ n.items.map Graph.Body.item := items ▸ List.mem_map_of_mem member
        obtain ⟨i, -, body⟩ := List.mem_map.1 item
        rw [← body]
        exact id
      refine Table.All.modify (h.imp fun _ n' _ attested => ?_) fun _ _ a => ⟨a.once, a.ranges⟩
      have grown := attested.grow (Graph.definitionsOf_of_none none n'.resultSet) same
      rwa [← stream] at grown
  | @document path d document writable frozen =>
      obtain ⟨added, stream, listed⟩ := view_documentEnded records ok
      obtain ⟨_, _, _, shape⟩ := s.documentEnded_eq (c := c) path d
      have symbols : (s.documentEnded c path d).symbols = s.symbols := by rw [shape]
      unfold State.Attested
      rw [symbols]
      refine h.grow stream (fun e member => ?_) same
      rcases listed_closing listed with ⟨-, rfl⟩ | ⟨-, k, rfl⟩
      · simp at member
      · obtain rfl := List.mem_singleton.1 member
        exact id

theorem Endings.attested (records : c.sink.Records view) (endings : Endings c s s')
    (filed : s.Filed view) (h : s.Attested view) (ok : s'.failure = none) : s'.Attested view := by
  induction endings with
  | refl => exact h
  | tail before last ih =>
      have ok' := (Step.ending last).failure_none ok
      obtain ⟨filed', -, -⟩ := (Endings.steps before).filed records filed ok'
      exact last.attested records filed' (ih ok') ok

end Steps

/-! ## Runs -/

section Runs

variable {μ ω : Type} {c : Context μ ω} {view : ω → List Element}

/-- **Whatever part of its schedule a run has performed**, every symbol is attested. -/
theorem attested_performed (records : c.sink.Records view) {memory : μ} {output : ω}
    (empty : view output = []) (anchored : c.oracle.Anchored memory) {first rest : List Moment}
    {s : State μ ω} (split : schedule c.oracle.files = first ++ rest)
    (course : Course c first ((State.start c memory output).opened c) s)
    (ok : s.failure = none) : s.Attested view := by
  refine deed_induction anchored (P := fun _ s => s.Attested view) (Table.all_empty _) ?_ split
    course ok
  intro first m rest s s' split course ok deed steps attested
  have ok' := steps.failure_none ok
  obtain ⟨rooted, -⟩ := marked_performed anchored split course ok'
  have filed := course.filed records empty ok'
  obtain ⟨-, -, same⟩ := steps.filed records filed ok
  cases deed with
  | opened fresh =>
      have taken : (s.began c _).failure = none := ok
      exact attested.grow (view_emitted records taken) (by simp [Graph.Body.IsDefinition]) same
  | ignored unsighted => exact attested
  | skipped sighted => exact attested.still rfl same
  | left shown foundings => exact foundings.attested records anchored shown filed rooted attested ok
  | closed endings =>
      have turned : Step c s { s with current := none } := .turned s none
      obtain ⟨filed', -, -⟩ := Steps.filed records (.single turned) filed ok'
      exact endings.attested records filed' attested ok
  | @recorded path file n sym t _ indexed inside here sighted shown foundings recorded =>
      have okT := recorded.steps.failure_none ok
      obtain ⟨filedT, -, -⟩ := foundings.moves.steps.filed records filed okT
      have own : n.file = path := (anchored.tree file indexed n inside).2.trans here.symm
      exact recorded.attested records anchored indexed inside own filedT
        (foundings.rooted anchored shown rooted)
        (foundings.attested records anchored shown filed rooted attested okT) ok

theorem definitionsOf_concluded (records : c.sink.Records view) {s : State μ ω}
    (filed : s.Filed view) (ok : (s.concluded c).failure = none) (resultSet : Id) :
    Graph.definitionsOf resultSet (view (s.concluded c).output) =
      Graph.definitionsOf resultSet (view s.output) := by
  obtain ⟨last, stream, concluding, -⟩ :=
    view_concluded records filed.traced.project filed.sorted ok
  have none : ∀ e ∈ last, ¬ e.body.IsDefinition := by
    intro e member
    obtain ⟨ids, body⟩ := concluding.joins e member
    rw [body]
    exact id
  rw [stream, Graph.definitionsOf_append, Graph.definitionsOf_of_none none, List.append_nil]

/-- A name is an identifier of a file of the run, and whenever the run comes to it, it denotes
the symbol of `key`. -/
structure Context.Meets (c : Context μ ω) (s : State μ ω) (key : String) (name : Node) : Prop where
  inside : ∃ file ∈ c.oracle.files, name ∈ file.nodes
  identifier : name.kind = .identifier
  denotes : ∀ x ∈ sightings c (schedule c.oracle.files) s, x.name = name →
    x.symbol.map (·.key) = some key

/-- The place of a declaration is on record when the files are done. -/
theorem recorded_at_end {memory : μ} {output : ω} (anchored : c.oracle.Anchored memory)
    (distinct : (c.oracle.files.map (·.root.file)).Nodup) {t : State μ ω}
    (course : Course c (schedule c.oracle.files) ((State.start c memory output).opened c) t)
    (ok : t.failure = none) {key : String} {n : SymbolNode}
    (node : t.symbols.get? key = some n) {id : NodeId} (chosen : id ∈ n.declarations)
    (reached : (c.oracle.node id t.memory).file ∉ c.oracle.files.map (·.root.file) ∨
      c.Meets ((State.start c memory output).opened c) key
        (markIn c t.memory (c.oracle.node id t.memory))) :
    siteIn c t.memory id ∈ n.recorded := by
  rcases reached with outside | ⟨⟨file, indexed, inside⟩, kind, denotes⟩
  · obtain ⟨-, noted⟩ := marked_performed anchored (List.append_nil _).symm course ok
    have traversal : t.traversal = c.oracle.files.map (·.root.file) := course.steps.settled.1
    have open_ : t.OutsideOpen :=
      course.outsideOpen (fun _ closing => closing_inside closing) (Table.all_empty _)
    obtain ⟨n', node', -, visited | ⟨d, document, ended⟩ | recorded⟩ := noted key n node id chosen
    · exact absurd (traversal ▸ visited) outside
    · have writable := open_ _ d document (traversal ▸ outside)
      simp [ended] at writable
    · obtain rfl := Option.some.inj (node.symm.trans node')
      exact recorded
  · obtain ⟨first, m, rest, split, named⟩ := exists_named distinct indexed inside kind
    obtain ⟨s, before, after⟩ := (split ▸ course : Course c (first ++ m :: rest) _ t).split
    have sighted := sighting_of_named named c.oracle s.memory
    have seen := denotes _ (split ▸ mem_sightings before.performs sighted) rfl
    obtain ⟨sym, found, rfl⟩ := Option.map_eq_some_iff.1 seen
    have found : (c.oracle.symbolAt _ s.memory).1 = some sym := found
    rw [found] at sighted
    exact mem_recorded_performed anchored split before after ok sighted node chosen rfl

/-- When everything is frozen, the place of a declaration that was reached is on record. -/
theorem recorded_ended {memory : μ} {output : ω} (anchored : c.oracle.Anchored memory)
    (distinct : (c.oracle.files.map (·.root.file)).Nodup) {t u : State μ ω}
    (course : Course c (schedule c.oracle.files) ((State.start c memory output).opened c) t)
    (endings : Endings c t u) (ok : u.failure = none) {key : String} {n : SymbolNode}
    (node : u.symbols.get? key = some n) {id : NodeId} (chosen : id ∈ n.declarations)
    (reached : (c.oracle.node id u.memory).file ∉ c.oracle.files.map (·.root.file) ∨
      c.Meets ((State.start c memory output).opened c) key
        (markIn c u.memory (c.oracle.node id u.memory))) :
    siteIn c u.memory id ∈ n.recorded := by
  have okT := endings.steps.failure_none ok
  have still : t.memory = u.memory := by
    obtain ⟨_, _, _, _, _, rfl⟩ := endings.shape
    rfl
  obtain ⟨n₀, node₀⟩ := Table.mem_keys_iff.1 (endings.keys ▸ Table.mem_keys_iff.2 ⟨n, node⟩)
  obtain ⟨n', node', grows⟩ := endings.steps.grows node₀
  obtain rfl := Option.some.inj (node.symm.trans node')
  obtain ⟨n', node', same⟩ := endings.steps.profile node₀
  obtain rfl := Option.some.inj (node.symm.trans node')
  rw [declarations_of_profile same] at chosen
  rw [← still] at reached ⊢
  exact grows.recorded (recorded_at_end anchored distinct course okT node₀ chosen reached)

/-- When everything is frozen, a declaration that was reached has one definition. -/
theorem definition_ended (records : c.sink.Records view) {memory : μ} {output : ω}
    (empty : view output = []) (anchored : c.oracle.Anchored memory)
    (distinct : (c.oracle.files.map (·.root.file)).Nodup) {t u : State μ ω}
    (course : Course c (schedule c.oracle.files) ((State.start c memory output).opened c) t)
    (endings : Endings c t u) (ok : u.failure = none) {key : String} {n : SymbolNode}
    (node : u.symbols.get? key = some n) {id : NodeId} (chosen : id ∈ n.declarations)
    (reached : (c.oracle.node id u.memory).file ∉ c.oracle.files.map (·.root.file) ∨
      c.Meets ((State.start c memory output).opened c) key
        (markIn c u.memory (c.oracle.node id u.memory))) :
    ∃ d, u.documents.get? (c.oracle.node id u.memory).file = some d ∧
      (Graph.definitionsOf n.resultSet (view u.output)).countP
        (fun r => r.document = d.id ∧ r.span = (siteIn c u.memory id).span) = 1 := by
  have okT := endings.steps.failure_none ok
  have whole : schedule c.oracle.files = schedule c.oracle.files ++ [] :=
    (List.append_nil _).symm
  have filedT := course.filed records empty okT
  obtain ⟨filed, -, -⟩ := endings.steps.filed records filedT ok
  obtain ⟨rooted, -⟩ := marked_performed anchored whole course okT
  have attested := endings.attested records filedT
    (attested_performed records empty anchored whole course okT) ok
  have member := recorded_ended anchored distinct course endings ok node chosen reached
  have own := file_siteIn anchored (((endings.rooted rooted).nodes key n node).shown id chosen)
  obtain ⟨d, document⟩ := (attested key n node).document member
  refine ⟨d, own ▸ document, ?_⟩
  exact (attested key n node).count (l := u.shelf view) filed.sorted filed.ordered document member

/-- **Every declaration is defined once.**  Take a symbol that has a node in the end, and one of
the declarations chosen for it.  If the file of the declaration is none of the run, or if its
name is an identifier of the run that denotes the symbol, then the stream has exactly one
definition of the symbol at the name of the declaration in the document of its file.

Nothing is asked of the order of the files, of who meets the symbol first, or of the list of
declarations, which may have repetitions.  That nodes are anchored is the contract of syntax
trees: a node never changes, it reports the file that it hangs in, and the name of a declaration
hangs beneath it. -/
theorem run_definitions (c : Context μ ω) {canceled : Cancellation Nat} {memory : μ} {output : ω}
    {stats : Stats} {s' : State μ (ω × Array Element)}
    (completed : Yields (run c.recorded canceled) (.start c.recorded memory (output, #[]))
      (stats, none) s')
    (anchored : c.oracle.Anchored memory)
    (distinct : (c.oracle.files.map (·.root.file)).Nodup)
    {key : String} {n : SymbolNode} (node : s'.symbols.get? key = some n) {id : NodeId}
    (chosen : id ∈ n.declarations) :
    let declaration := c.oracle.node id s'.memory
    let name := markIn c s'.memory declaration
    (declaration.file ∉ c.oracle.files.map (·.root.file) ∨ c.recorded.Meets
      ((State.start c.recorded memory (output, #[])).opened c.recorded) key name) →
    ∃ d, s'.documents.get? declaration.file = some d ∧
      (Graph.definitionsOf n.resultSet s'.stream).countP
        (fun r => r.document = d.id ∧ r.span = name.span) = 1 := by
  have records := records_recorded c
  obtain ⟨t, u, course, endings, -, ⟨okT, filedT⟩, ⟨okU, filed⟩, rfl, ok⟩ :=
    filed_run records rfl completed
  have unchanged : Graph.definitionsOf n.resultSet (u.concluded c.recorded).stream =
      Graph.definitionsOf n.resultSet u.output.2.toList :=
    definitionsOf_concluded records filed ok n.resultSet
  rw [symbols_concluded] at node
  rw [unchanged, documents_concluded, memory_concluded]
  intro declaration name reached
  exact definition_ended records rfl anchored distinct course endings okU node chosen reached

/-! ### A declaration that another file asks for first -/

theorem anchored_layered : (Context.ofSketch layered).oracle.Anchored [] :=
  Sketch.anchored [] (by decide +kernel) (by decide +kernel)

theorem declarations_layered :
    ((outcome (run (Context.ofSketch layered).recorded false)
      (.start (Context.ofSketch layered).recorded [] ((), #[]))).2.symbols.get? "x").map
      (·.declarations) = some [⟨14⟩] := by
  decide +kernel

theorem meets_layered :
    (Context.ofSketch layered).recorded.Meets
      ((State.start (Context.ofSketch layered).recorded [] ((), #[])).opened
        (Context.ofSketch layered).recorded) "x" (layered.node ⟨15⟩) where
  inside := by decide +kernel
  identifier := by decide +kernel
  denotes := by decide +kernel

theorem run_definitions_layered :
    ∃ stats s' n d, Yields (run (Context.ofSketch layered).recorded false)
      (.start (Context.ofSketch layered).recorded [] ((), #[])) (stats, none) s' ∧
      s'.symbols.get? "x" = some n ∧ ⟨14⟩ ∈ n.declarations ∧
      s'.documents.get? "b.go" = some d ∧
      (Graph.definitionsOf n.resultSet s'.stream).countP
        (fun r => r.document = d.id ∧ r.span = (layered.node ⟨15⟩).span) = 1 := by
  have completed := yields_of_answer completed_layered
  obtain ⟨n, node, chosen⟩ := Option.map_eq_some_iff.1 declarations_layered
  have member : ⟨14⟩ ∈ n.declarations := chosen ▸ List.mem_singleton_self _
  obtain ⟨d, document, once⟩ := run_definitions (Context.ofSketch layered) completed
    anchored_layered (by decide +kernel) node member (.inr meets_layered)
  exact ⟨_, _, n, d, completed, node, member, document, once⟩

end Runs

end Session
end SymbolAtlas
