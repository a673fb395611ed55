/-
# SymbolAtlas.Proofs.Session.Visits -- what the visit of a syntax node does

An identifier names a symbol (`symbolNamed`), and so does a declaration that publishes
its alias target (`symbolPublished`).  A visit that finds no symbol adds details only,
and may count what it passed.  A visit that finds one asks for its node, and what follows is
either details again or the one occurrence of the visit: `visit_enter` and `visit_leave`.
What the export of a declaration comes to is said once (`exporting_linkExport`, `exporting_leave`).

Also here is what holds through every step: a refusal stays (`Step.failure_none`), and the
files of the run are settled when it begins (`Step.settled`).
-/
import SymbolAtlas.Proofs.Session.Resolution

set_option autoImplicit false

namespace SymbolAtlas.Session

open SymbolAtlas.Graph (Id)

variable {μ ω : Type} {c : Context μ ω}

/-! ## What every step keeps -/

theorem failure_none_of_emitted {s : State μ ω} {body : Graph.Body}
    (h : (s.emitted c body).failure = none) : s.failure = none := by
  cases failed : s.failure with
  | none => rfl
  | some reason => simp [State.emitted, deliver, failed] at h

theorem failure_none_of_emittedAll {s : State μ ω} {bodies : List Graph.Body}
    (h : (s.emittedAll c bodies).failure = none) : s.failure = none := by
  induction bodies generalizing s with
  | nil => exact h
  | cons body bodies ih => exact failure_none_of_emitted (ih h)

theorem State.forwarded_eq (path : String) (document id : Id) (s : State μ ω) (key : String) :
    ∃ symbols, s.forwarded path document id key = { s with symbols } := by
  unfold State.forwarded
  split
  · exact ⟨s.symbols, rfl⟩
  · split
    · exact ⟨s.symbols, rfl⟩
    · exact ⟨_, rfl⟩

/-- Forwarding changes symbols only. -/
theorem State.foldl_forwarded_eq (path : String) (document id : Id) (keys : List String)
    (s : State μ ω) :
    ∃ symbols, keys.foldl (State.forwarded path document id) s = { s with symbols } := by
  induction keys generalizing s with
  | nil => exact ⟨s.symbols, rfl⟩
  | cons key keys ih =>
      obtain ⟨first, one⟩ := s.forwarded_eq path document id key
      obtain ⟨rest, all⟩ := ih { s with symbols := first }
      exact ⟨rest, by rw [List.foldl_cons, one, all]⟩

/-- A usage emits one range and adds it to its document. -/
theorem Usage.shape {s s' : State μ ω} (h : Usage c s s') :
    ∃ path range symbols, ∃ f : Stats → Stats, (∀ n, (f n).skipped = n.skipped) ∧
      s' = { s.emitted c (.range range) with
        symbols
        documents := s.documents.modify path fun d =>
          { d with ranges := d.ranges.push (s.lastId + 1) }
        stats := f s.stats } := by
  cases h with
  | @marked key path n d declaration name node open_ document writable new =>
      exact ⟨path, _, _, fun n => { n with definitions := n.definitions + 1 }, fun _ => rfl, rfl⟩
  | @referred key path n d name node open_ document writable =>
      obtain ⟨symbols, same⟩ := State.foldl_forwarded_eq path d.id (s.lastId + 1)
        (n.forwards key) (s.referred c key path n d name)
      exact ⟨path, _, symbols, fun n => { n with references := n.references + 1 }, fun _ => rfl,
        same⟩

theorem Detail.failure_none {s s' : State μ ω} (h : Detail c s s') (ok : s'.failure = none) :
    s.failure = none := by
  cases h with
  | asked | counted | sited | awaited | confined => exact ok
  | began | defined | joined => exact failure_none_of_emitted ok
  | attached | hovered => exact failure_none_of_emitted (failure_none_of_emitted ok)

/-- A refusal stays: where nothing is refused, nothing was. -/
theorem Step.failure_none {s s' : State μ ω} (h : Step c s s') (ok : s'.failure = none) :
    s.failure = none := by
  cases h with
  | detail h => exact h.failure_none ok
  | growth h =>
      cases h with
      | enrolled => exact failure_none_of_emitted ok
      | based | composed => exact ok
  | usage h =>
      obtain ⟨_, _, _, _, _, rfl⟩ := h.shape
      exact failure_none_of_emitted ok
  | ending h =>
      cases h with
      | symbol => exact failure_none_of_emittedAll ok
      | document =>
          unfold State.documentEnded at ok
          split at ok
          · exact ok
          · exact failure_none_of_emitted ok
  | opened => exact failure_none_of_emitted ok
  | turned | passed => exact ok

theorem Steps.failure_none {s s' : State μ ω} (h : Steps c s s') (ok : s'.failure = none) :
    s.failure = none := by
  induction h with
  | refl => exact ok
  | tail _ last ih => exact ih (last.failure_none ok)

/-- Emitting changes the output only. -/
theorem State.emittedAll_eq (s : State μ ω) (bodies : List Graph.Body) :
    ∃ lastId output failure, s.emittedAll c bodies = { s with lastId, output, failure } := by
  induction bodies generalizing s with
  | nil => exact ⟨s.lastId, s.output, s.failure, rfl⟩
  | cons body bodies ih => exact ih (s.emitted c body)

theorem State.documentEnded_eq (s : State μ ω) (path : String) (d : DocumentNode) :
    ∃ lastId output failure, s.documentEnded c path d = { s with
      lastId, output, failure
      documents := s.documents.modify path fun d => { d with locals := [], ended := true } } := by
  unfold State.documentEnded
  split
  · exact ⟨s.lastId, s.output, s.failure, rfl⟩
  · exact ⟨_, _, _, rfl⟩

/-- An ending changes nodes and documents, and emits. -/
theorem Ending.shape {s s' : State μ ω} (h : Ending c s s') :
    ∃ lastId output failure symbols documents,
      s' = { s with lastId, output, failure, symbols, documents } := by
  cases h with
  | @symbol key n node open_ =>
      obtain ⟨lastId, output, failure, same⟩ := s.emittedAll_eq (c := c) (n.items.map .item)
      exact ⟨lastId, output, failure, _, s.documents, by rw [State.symbolEnded, same]⟩
  | @document path d document writable frozen =>
      obtain ⟨lastId, output, failure, same⟩ := s.documentEnded_eq (c := c) path d
      exact ⟨lastId, output, failure, s.symbols, _, same⟩

theorem Endings.shape {s s' : State μ ω} (h : Endings c s s') :
    ∃ lastId output failure symbols documents,
      s' = { s with lastId, output, failure, symbols, documents } := by
  induction h with
  | refl => exact ⟨_, _, _, _, _, rfl⟩
  | tail _ last ih =>
      obtain ⟨_, _, _, _, _, rfl⟩ := ih
      obtain ⟨_, _, _, _, _, rfl⟩ := last.shape
      exact ⟨_, _, _, _, _, rfl⟩

/-- The files of a run and its project are settled when it begins. -/
theorem Step.settled {s s' : State μ ω} (h : Step c s s') :
    s'.traversal = s.traversal ∧ s'.projectId = s.projectId := by
  cases h with
  | detail h => cases h <;> exact ⟨rfl, rfl⟩
  | growth h => cases h <;> exact ⟨rfl, rfl⟩
  | usage h =>
      obtain ⟨_, _, _, _, _, rfl⟩ := h.shape
      exact ⟨rfl, rfl⟩
  | ending h =>
      obtain ⟨_, _, _, _, _, rfl⟩ := h.shape
      exact ⟨rfl, rfl⟩
  | opened | turned | passed => exact ⟨rfl, rfl⟩

theorem Steps.settled {s s' : State μ ω} (h : Steps c s s') :
    s'.traversal = s.traversal ∧ s'.projectId = s.projectId := by
  induction h with
  | refl => exact ⟨rfl, rfl⟩
  | tail _ last ih => exact ⟨last.settled.1.trans ih.1, last.settled.2.trans ih.2⟩

/-! ## What a visit leaves alone -/

/-- A document without its ranges and its confined symbols. -/
def DocumentNode.header (d : DocumentNode) : DocumentNode := { d with ranges := #[], locals := [] }

/-- The part of a document that visits leave alone. -/
def State.headerAt (s : State μ ω) (path : String) : Option DocumentNode :=
  (s.documents.get? path).map DocumentNode.header

theorem headerAt_modify {s s' : State μ ω} {path other : String}
    {f : DocumentNode → DocumentNode} (changed : s'.documents = s.documents.modify path f)
    (same : ∀ d, (f d).header = d.header) : s'.headerAt other = s.headerAt other := by
  unfold State.headerAt
  rw [changed, Table.map_get?_modify _ _ _ same]

/-- A path whose document exists, or begins only when the run comes to its file. -/
def State.Knows (s : State μ ω) (path : String) : Prop :=
  path ∈ s.traversal ∨ ∃ d, s.documents.get? path = some d

/-- The files of the run are the same, and so are the headers of the documents it knows. -/
structure State.Steady (s s' : State μ ω) : Prop where
  current : s'.current = s.current
  traversal : s'.traversal = s.traversal
  headers : ∀ path, s.Knows path → s'.headerAt path = s.headerAt path

theorem State.Steady.refl (s : State μ ω) : s.Steady s := ⟨rfl, rfl, fun _ _ => rfl⟩

theorem State.Steady.document {s s' : State μ ω} (h : s.Steady s') {path : String}
    {d : DocumentNode} (document : s.documents.get? path = some d) :
    ∃ d', s'.documents.get? path = some d' ∧ d'.header = d.header := by
  have here := h.headers path (.inr ⟨d, document⟩)
  simp only [State.headerAt, document, Option.map_some, Option.map_eq_some_iff] at here
  exact here

theorem State.Steady.knows {s s' : State μ ω} (h : s.Steady s') {path : String}
    (known : s.Knows path) : s'.Knows path := by
  rcases known with inside | ⟨d, document⟩
  · exact .inl (h.traversal ▸ inside)
  · obtain ⟨d', document', -⟩ := h.document document
    exact .inr ⟨d', document'⟩

theorem State.Steady.trans {s s' s'' : State μ ω} (first : s.Steady s') (second : s'.Steady s'') :
    s.Steady s'' :=
  ⟨second.current.trans first.current, second.traversal.trans first.traversal,
    fun path known => (second.headers path (first.knows known)).trans (first.headers path known)⟩

theorem Detail.steady {s s' : State μ ω} (h : Detail c s s') : s.Steady s' := by
  cases h with
  | asked | counted | sited | attached | hovered | joined | awaited =>
      exact ⟨rfl, rfl, fun _ _ => rfl⟩
  | @began path fresh outside =>
      refine ⟨rfl, rfl, fun other known => ?_⟩
      have different : path ≠ other := by
        rintro rfl
        rcases known with inside | ⟨d, document⟩
        · exact outside inside
        · simp [fresh] at document
      unfold State.headerAt State.began
      rw [Table.get?_insert, if_neg different]
  | defined => exact ⟨rfl, rfl, fun _ _ => headerAt_modify rfl fun _ => rfl⟩
  | confined => exact ⟨rfl, rfl, fun _ _ => headerAt_modify rfl fun _ => rfl⟩

theorem Growth.steady {s s' : State μ ω} (h : Growth c s s') : s.Steady s' := by
  cases h with
  | enrolled | based | composed => exact ⟨rfl, rfl, fun _ _ => rfl⟩

theorem Usage.steady {s s' : State μ ω} (h : Usage c s s') : s.Steady s' := by
  obtain ⟨_, _, _, _, _, rfl⟩ := h.shape
  exact ⟨rfl, rfl, fun _ _ => headerAt_modify rfl fun _ => rfl⟩

theorem Moves.steady {s s' : State μ ω} (h : Moves c s s') : s.Steady s' := by
  induction h with
  | refl => exact .refl s
  | tail _ last ih =>
      cases last with
      | detail h => exact ih.trans h.steady
      | growth h => exact ih.trans h.steady

/-! ## Visits -/

/-- The symbol that the visit of a node before its children is about. -/
def symbolNamed (o : Oracle μ) (n : Node) (memory : μ) : Option Symbol :=
  if n.kind = .identifier then (o.symbolAt n.id memory).1 else none

/-- The symbol that the visit of a node after its children is about: what the name of a
declaration denotes that publishes its alias target. -/
def symbolPublished (o : Oracle μ) (n : Node) (memory : μ) : Option Symbol :=
  let published := o.exportAlias n.id memory
  if n.kind.isDeclaration ∧ published.1.isSome then
    n.nameNode.bind fun name => (o.symbolAt name published.2).1
  else none

/-- A visit that is about `subject`: nothing but details, after which the identifier may be
counted as one that denotes nothing, or a request for the node of the subject and then
details or one occurrence. -/
def Visit (c : Context μ ω) (s s' : State μ ω) : Option Symbol → Prop
  | none => ∃ t, Details c s t ∧ (s' = t ∨ s' = t.passed)
  | some sym => ∃ t, Resolution c s t sym.key ∧ (Details c t s' ∨ Usage c t s')

theorem Visit.steps {s s' : State μ ω} {subject : Option Symbol} (h : Visit c s s' subject) :
    Steps c s s' := by
  cases subject with
  | none =>
      obtain ⟨t, details, rfl | rfl⟩ := h
      · exact details.steps
      · exact details.steps.tail (.passed t)
  | some sym =>
      obtain ⟨t, r, details | usage⟩ := h
      · exact r.moves.steps.trans details.steps
      · exact r.moves.steps.tail (.usage usage)

theorem Visit.steady {s s' : State μ ω} {subject : Option Symbol} (h : Visit c s s' subject) :
    s.Steady s' := by
  cases subject with
  | none =>
      obtain ⟨t, details, rfl | rfl⟩ := h
      · exact details.moves.steady
      · exact details.moves.steady.trans ⟨rfl, rfl, fun _ _ => rfl⟩
  | some sym =>
      obtain ⟨t, r, details | usage⟩ := h
      · exact r.moves.steady.trans details.moves.steady
      · exact r.moves.steady.trans usage.steady

/-- Details may come before a request. -/
theorem Details.resolution {s t t' : State μ ω} {root : String} (d : Details c s t)
    (r : Resolution c t t' root) : Resolution c s t' root := by
  refine ⟨d.moves.trans r.moves, r.has, (kept_of_core d.core).trans r.kept, fun key has => ?_⟩
  rcases r.new key has with old | new
  · exact .inl ((kept_of_core d.core.symm).has old)
  · exact .inr new

/-- A request may be followed by one for a symbol that its node is linked to. -/
theorem Resolution.follow {s t t' : State μ ω} {root next : String} (r : Resolution c s t root)
    (linked : t.Linked root next) (r' : Resolution c t t' next) : Resolution c s t' root := by
  refine ⟨r.moves.trans r'.moves, r'.kept.has r.has, r.kept.trans r'.kept, fun key has => ?_⟩
  rcases r'.new key has with old | ⟨complete, reached⟩
  · rcases r.new key old with older | ⟨complete, reached⟩
    · exact .inl older
    · exact .inr ⟨r'.kept.complete complete,
        Relation.ReflTransGen.mono (fun _ _ h => r'.kept.linked h) _ _ reached⟩
  · exact .inr ⟨complete, .head (r'.kept.linked linked) reached⟩

theorem resolution_symbolNode {sym : Symbol} {use : Option NodeId} {s s' : State μ ω}
    {key : String} (h : Yields (symbolNode c sym use) s key s') :
    key = sym.key ∧ Resolution c s s' sym.key :=
  resolves_symbolNodeWith use _ sym s key s' h

/-- Whether a name is taken for a definition of the symbol of a node. -/
def SymbolNode.takes (c : Context μ ω) (memory : μ) (n : SymbolNode) (name : Node) : Bool :=
  n.sites.contains (Site.ofNode name) || c.oracle.isDefinitionSite memory name

/-- What becomes of an identifier of the document `path` that denotes the symbol of `key`: it
is recorded as a definition, unless the site of its declaration was, or as a reference. -/
inductive Recorded (c : Context μ ω) (path key : String) (name : Node) (s : State μ ω) :
    State μ ω → Prop where
  | known {n : SymbolNode} {id : NodeId} (node : s.symbols.get? key = some n)
      (definition : n.takes c s.memory name = true)
      (found : (n.sites.get? (Site.ofNode name)).or name.parent = some id)
      (old : siteIn c s.memory id ∈ n.recorded) : Recorded c path key name s s
  | defined {n : SymbolNode} {d : DocumentNode} {id : NodeId}
      (node : s.symbols.get? key = some n) (open_ : n.ended = false)
      (document : s.documents.get? path = some d) (writable : d.ended = false)
      (definition : n.takes c s.memory name = true)
      (found : (n.sites.get? (Site.ofNode name)).or name.parent = some id)
      (new : siteIn c s.memory id ∉ n.recorded) :
      Recorded c path key name s (s.defined c key path n d (c.oracle.node id s.memory)
        (markIn c s.memory (c.oracle.node id s.memory)))
  | referred {n : SymbolNode} {d : DocumentNode} (node : s.symbols.get? key = some n)
      (open_ : n.ended = false) (document : s.documents.get? path = some d)
      (writable : d.ended = false) (reference : n.takes c s.memory name = false) :
      Recorded c path key name s ((n.forwards key).foldl
        (State.forwarded path d.id (s.lastId + 1)) (s.referred c key path n d name))

theorem Recorded.usage {path key : String} {name : Node} {s s' : State μ ω}
    (h : Recorded c path key name s s') : s' = s ∨ Usage c s s' := by
  cases h with
  | known => exact .inl rfl
  | defined node open_ document writable _ _ new =>
      exact .inr (.marked node open_ document writable new)
  | referred node open_ document writable => exact .inr (.referred node open_ document writable)

theorem Recorded.node {path key : String} {name : Node} {s s' : State μ ω}
    (h : Recorded c path key name s s') : ∃ n, s.symbols.get? key = some n := by
  cases h with
  | known node | defined node | referred node => exact ⟨_, node⟩

theorem Recorded.steps {path key : String} {name : Node} {s s' : State μ ω}
    (h : Recorded c path key name s s') : Steps c s s' := by
  rcases h.usage with rfl | usage
  · exact .refl
  · exact .single (.usage usage)

/-- **The visit of an identifier**: it is counted as one that denotes nothing, or the node of
what it denotes is requested and the identifier is recorded. -/
theorem yields_visitIdentifier {path : String} {name : Node} {s s' : State μ ω} {u : Unit}
    {d : DocumentNode} (document : s.documents.get? path = some d)
    (h : Yields (visitIdentifier c path name) s u s') :
    (c.oracle.symbolAt name.id s.memory).1 = none ∧
        s' = State.passed { s with memory := (c.oracle.symbolAt name.id s.memory).2 } ∨
      ∃ sym t, (c.oracle.symbolAt name.id s.memory).1 = some sym ∧
        Yields (symbolNode c sym (some name.id))
          { s with memory := (c.oracle.symbolAt name.id s.memory).2 } sym.key t ∧
        Recorded c path sym.key name t s' := by
  rw [visitIdentifier, yields_ask_bind] at h
  cases found : (c.oracle.symbolAt name.id s.memory).1 with
  | none =>
      simp only [found, yields_count] at h
      exact .inl ⟨rfl, h⟩
  | some sym =>
      simp only [found] at h
      obtain ⟨_, t, requested, h⟩ := yields_bind.1 h
      obtain ⟨rfl, r⟩ := resolution_symbolNode requested
      obtain ⟨n, node⟩ := r.has
      obtain ⟨d', document', -⟩ := r.moves.steady.document (by exact document)
      rw [yields_bind_of_iff fun _ _ => yields_isDefinition] at h
      simp only [node, Option.getD_some] at h
      refine .inr ⟨sym, t, rfl, requested, ?_⟩
      split at h
      · rename_i definition
        obtain ⟨id, which, ⟨old, rfl⟩ | ⟨new, open_, writable, rfl⟩⟩ :=
          yields_markDefinition node document' h
        · exact .known node definition which old
        · exact .defined node open_ document' writable definition which new
      · rename_i reference
        obtain ⟨open_, writable, rfl⟩ := yields_addReference node document' h
        exact .referred node open_ document' writable (Bool.eq_false_iff.2 reference)

theorem visit_visitIdentifier {path : String} {name : Node} {s s' : State μ ω} {u : Unit}
    {d : DocumentNode} (document : s.documents.get? path = some d)
    (h : Yields (visitIdentifier c path name) s u s') :
    Visit c s s' (c.oracle.symbolAt name.id s.memory).1 := by
  have asked : Detail c s { s with memory := (c.oracle.symbolAt name.id s.memory).2 } :=
    .asked (.symbolAt ..)
  rcases yields_visitIdentifier document h with ⟨none, rfl⟩ | ⟨sym, t, some_, requested, recorded⟩
  · rw [none]
    exact ⟨_, .single asked, .inr rfl⟩
  · rw [some_]
    refine ⟨t, Details.resolution (.single asked) (resolution_symbolNode requested).2, ?_⟩
    rcases recorded.usage with rfl | usage
    · exact .inl .refl
    · exact .inr usage

/-- A node is entered as long as nothing was refused, and an identifier is visited. -/
theorem yields_enter {path : String} {n : Node} {s s' : State μ ω} {b : Bool} :
    Yields (enter c path n) s b s' ↔ (b = !s.failure.isSome) ∧
      if s.failure = none ∧ n.kind = .identifier then Yields (visitIdentifier c path n) s () s'
      else s' = s := by
  rw [enter, yields_get_bind]
  cases failed : s.failure with
  | some reason => simp [yields_pure]
  | none =>
      simp only [Option.isSome_none, Bool.false_eq_true, if_false, Bool.not_false, true_and]
      split
      · constructor
        · intro h
          obtain ⟨_, t, visited, h⟩ := yields_bind.1 h
          obtain ⟨rfl, rfl⟩ := yields_pure.1 h
          exact ⟨rfl, visited⟩
        · rintro ⟨rfl, visited⟩
          exact yields_bind.2 ⟨(), s', visited, yields_pure.2 ⟨rfl, rfl⟩⟩
      · exact yields_pure

/-- **What the visit of a node before its children does.** -/
theorem visit_enter {path : String} {n : Node} {s s' : State μ ω} {b : Bool} {d : DocumentNode}
    (ok : s.failure = none) (document : s.documents.get? path = some d)
    (h : Yields (enter c path n) s b s') :
    b = true ∧ Visit c s s' (symbolNamed c.oracle n s.memory) := by
  obtain ⟨answer, visited⟩ := yields_enter.1 h
  refine ⟨by simpa [ok] using answer, ?_⟩
  unfold symbolNamed
  by_cases identifier : n.kind = .identifier
  · rw [if_pos ⟨ok, identifier⟩] at visited
    rw [if_pos identifier]
    exact visit_visitIdentifier document visited
  · rw [if_neg fun both => identifier both.2] at visited
    rw [if_neg identifier]
    exact ⟨s', visited ▸ .refl, .inl rfl⟩

/-! ## Exports -/

/-- A published moniker may be counted, and nothing else happens. -/
def Tallied (v s' : State μ ω) : Prop :=
  s' = v ∨ s' = { v with stats := { v.stats with exportAliases := v.stats.exportAliases + 1 } }

/-- What is left to do for a declaration that is exported under a name, once the node of the
symbol that it declares is there: the target of an alias is requested, and published by the
document that is visited. -/
inductive Exporting (c : Context μ ω) (path name : String) (use : NodeId) (n : SymbolNode)
    (t : State μ ω) : State μ ω → Prop where
  /-- The symbol is no alias, or one without a target. -/
  | other (other : ∀ target, n.variant ≠ some (.aliasOf (some target))) :
      Exporting c path name use n t t
  /-- The document has no location, or the target has ended. -/
  | withheld {target : Symbol} {m : SymbolNode} {u : State μ ω}
      (variant : n.variant = some (.aliasOf (some target)))
      (requested : Yields (symbolNode c target (some use)) t target.key u)
      (node : u.symbols.get? target.key = some m)
      (barred : ((u.documents.get? path).getD default).location = none ∨ m.ended = true) :
      Exporting c path name use n t u
  | published {target : Symbol} {m : SymbolNode} {location : Location} {u v s' : State μ ω}
      (variant : n.variant = some (.aliasOf (some target)))
      (requested : Yields (symbolNode c target (some use)) t target.key u)
      (node : u.symbols.get? target.key = some m)
      (place : ((u.documents.get? path).getD default).location = some location)
      (open_ : m.ended = false)
      (attached : Yields (attachMoniker c target.key {
        scheme := c.options.scheme
        identifier := Moniker.identifierOf location.path [if name = "" then target.name else name]
        kind := .ofExternal ((u.documents.get? path).getD default).external
        package := location.package }) u () v)
      (tallied : Tallied v s') : Exporting c path name use n t s'

/-- **What the export of a declaration comes to** whose name denotes a symbol. -/
theorem exporting_linkExport {declaration : Node} {name : String} {nameNode : NodeId}
    {path : String} {sym : Symbol} {s s' : State μ ω} {u : Unit}
    (current : s.current = some path) (named : declaration.nameNode = some nameNode)
    (found : (c.oracle.symbolAt nameNode s.memory).1 = some sym)
    (h : Yields (linkExport c declaration name) s u s') :
    ∃ t n, Yields (symbolNode c sym (some nameNode))
        { s with memory := (c.oracle.symbolAt nameNode s.memory).2 } sym.key t ∧
      t.symbols.get? sym.key = some n ∧ Exporting c path name nameNode n t s' := by
  rw [linkExport, yields_get_bind] at h
  simp only [current, named] at h
  rw [yields_ask_bind] at h
  simp only [found] at h
  obtain ⟨_, t, requested, h⟩ := yields_bind.1 h
  obtain ⟨rfl, r⟩ := resolution_symbolNode requested
  obtain ⟨n, node⟩ := r.has
  refine ⟨t, n, requested, node, ?_⟩
  simp only [yields_lookup_bind, node, Option.getD_some] at h
  split at h
  case h_2 =>
    rename_i other
    obtain ⟨-, rfl⟩ := yields_pure.1 h
    exact .other other
  rename_i target variant
  obtain ⟨_, v, requested', h⟩ := yields_bind.1 h
  obtain ⟨rfl, r'⟩ := resolution_symbolNode requested'
  obtain ⟨m, targetNode⟩ := r'.has
  simp only [yields_lookup_bind, yields_get_bind, targetNode, Option.getD_some] at h
  split at h
  · rename_i unplaced
    obtain ⟨-, rfl⟩ := yields_pure.1 h
    exact .withheld variant requested' targetNode (.inl unplaced)
  rename_i location place
  split at h
  · rename_i ended
    obtain ⟨-, rfl⟩ := yields_pure.1 h
    exact .withheld variant requested' targetNode (.inr ended)
  rename_i open_
  obtain ⟨_, w, attached, h⟩ := yields_bind.1 h
  refine .published variant requested' targetNode place (Bool.not_eq_true _ ▸ open_) attached ?_
  rw [yields_lookup_bind] at h
  split at h
  · exact .inr (yields_count.1 h)
  · exact .inl (yields_pure.1 h).2

theorem Tallied.details {v s' : State μ ω} (tallied : Tallied v s') : Details c v s' := by
  obtain rfl | rfl := tallied
  · exact .refl
  · exact .single (.counted v)

/-- The request for the node of what a name denotes, and of the alias target it publishes. -/
theorem resolution_linkExport {declaration : Node} {name : String} {nameNode : NodeId}
    {path : String} {sym : Symbol} {s s' : State μ ω} {u : Unit}
    (current : s.current = some path) (named : declaration.nameNode = some nameNode)
    (found : (c.oracle.symbolAt nameNode s.memory).1 = some sym)
    (h : Yields (linkExport c declaration name) s u s') : Resolution c s s' sym.key := by
  obtain ⟨t, n, requested, node, exporting⟩ := exporting_linkExport current named found h
  have asked : Detail c s { s with memory := (c.oracle.symbolAt nameNode s.memory).2 } :=
    .asked (.symbolAt ..)
  have r : Resolution c s t sym.key :=
    Details.resolution (.single asked) (resolution_symbolNode requested).2
  have both {target : Symbol} {v : State μ ω} (variant : n.variant = some (.aliasOf (some target)))
      (requested : Yields (symbolNode c target (some nameNode)) t target.key v) :
      Resolution c s v sym.key :=
    r.follow ⟨n, _, node, variant, target, List.mem_singleton.2 rfl, rfl⟩
      (resolution_symbolNode requested).2
  cases exporting with
  | other => exact r
  | withheld variant requested => exact both variant requested
  | published variant requested targetNode _ _ attached tallied =>
      exact ((both variant requested).details (details_attachMoniker targetNode attached)).details
        tallied.details

/-- A declaration whose name denotes nothing is asked about, no more. -/
theorem asking_linkExport {declaration : Node} {name path : String} {s s' : State μ ω} {u : Unit}
    (current : s.current = some path)
    (none : (declaration.nameNode.bind fun n => (c.oracle.symbolAt n s.memory).1) = none)
    (h : Yields (linkExport c declaration name) s u s') :
    ∃ memory, Details c s s' ∧ s' = { s with memory } := by
  rw [linkExport, yields_get_bind] at h
  simp only [current] at h
  split at h
  · obtain ⟨-, rfl⟩ := yields_pure.1 h
    exact ⟨_, .refl, rfl⟩
  · rename_i nameNode named
    simp only [named, Option.bind_some] at none
    simp only [yields_ask_bind, none, yields_pure] at h
    obtain ⟨-, rfl⟩ := h
    exact ⟨_, .single (.asked (.symbolAt ..)), rfl⟩

/-- A declaration that publishes no symbol is asked about when it is left, no more. -/
theorem asking_leave {path : String} {n : Node} {s s' : State μ ω} {u : Unit}
    (current : s.current = some path)
    (idle : s.failure.isSome = true ∨ symbolPublished c.oracle n s.memory = none)
    (h : Yields (leave c n) s u s') : ∃ memory, Details c s s' ∧ s' = { s with memory } := by
  rw [leave, yields_get_bind] at h
  split at h
  · obtain ⟨-, rfl⟩ := yields_pure.1 h
    exact ⟨_, .refl, rfl⟩
  rename_i visited
  rw [Bool.or_eq_true, not_or, Bool.not_eq_true', Bool.not_eq_false] at visited
  rw [yields_ask_bind] at h
  have asked : Detail c s { s with memory := (c.oracle.exportAlias n.id s.memory).2 } :=
    .asked (.exportAlias ..)
  cases answer : (c.oracle.exportAlias n.id s.memory).1 with
  | none =>
      simp only [answer, yields_pure] at h
      obtain ⟨-, rfl⟩ := h
      exact ⟨_, .single asked, rfl⟩
  | some name =>
      simp only [answer] at h
      have unbound : (n.nameNode.bind fun name =>
          (c.oracle.symbolAt name (c.oracle.exportAlias n.id s.memory).2).1) = none := by
        simpa [symbolPublished, answer, visited.2] using idle.resolve_left visited.1
      obtain ⟨memory, details, rfl⟩ := asking_linkExport (by exact current) unbound h
      exact ⟨memory, .head asked details, rfl⟩

/-- A declaration that publishes a symbol is exported when it is left. -/
theorem exporting_leave {n : Node} {sym : Symbol} {s s' : State μ ω} {u : Unit}
    (ok : s.failure = none) (published : symbolPublished c.oracle n s.memory = some sym)
    (h : Yields (leave c n) s u s') :
    ∃ name nameNode, (c.oracle.exportAlias n.id s.memory).1 = some name ∧
      n.nameNode = some nameNode ∧
      (c.oracle.symbolAt nameNode (c.oracle.exportAlias n.id s.memory).2).1 = some sym ∧
      Yields (linkExport c n name) { s with memory := (c.oracle.exportAlias n.id s.memory).2 }
        u s' := by
  simp only [symbolPublished] at published
  split at published
  case isFalse => cases published
  rename_i publishes
  obtain ⟨declares, answered⟩ := publishes
  obtain ⟨name, answer⟩ := Option.isSome_iff_exists.1 answered
  obtain ⟨nameNode, named, found⟩ := Option.bind_eq_some_iff.1 published
  rw [leave, yields_get_bind, if_neg (by simp [ok, declares]), yields_ask_bind] at h
  simp only [answer] at h
  exact ⟨name, nameNode, answer, named, found, h⟩

/-- A declaration that publishes a symbol is left with a request for the symbol's node. -/
theorem resolution_leave {path : String} {n : Node} {sym : Symbol} {s s' : State μ ω} {u : Unit}
    (ok : s.failure = none) (current : s.current = some path)
    (published : symbolPublished c.oracle n s.memory = some sym)
    (h : Yields (leave c n) s u s') : Resolution c s s' sym.key := by
  obtain ⟨name, nameNode, -, named, found, linked⟩ := exporting_leave ok published h
  have asked : Detail c s { s with memory := (c.oracle.exportAlias n.id s.memory).2 } :=
    .asked (.exportAlias ..)
  exact Details.resolution (.single asked)
    (resolution_linkExport (by exact current) named found linked)

/-- **What the visit of a node after its children does.** -/
theorem visit_leave {path : String} {n : Node} {s s' : State μ ω} {u : Unit}
    (ok : s.failure = none) (current : s.current = some path) (h : Yields (leave c n) s u s') :
    Visit c s s' (symbolPublished c.oracle n s.memory) := by
  cases subject : symbolPublished c.oracle n s.memory with
  | none =>
      obtain ⟨_, details, -⟩ := asking_leave current (.inr subject) h
      exact ⟨s', details, .inl rfl⟩
  | some sym => exact ⟨s', resolution_leave ok current subject h, .inl .refl⟩

end SymbolAtlas.Session
