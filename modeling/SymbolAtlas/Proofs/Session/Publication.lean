/-
# SymbolAtlas.Proofs.Session.Publication -- symbols that are published under another name

A declaration that is left may publish the target of its alias under the name of the current
document (`publication`).  The target gets the moniker if it is open, whatever it is: nobody
asks whether it is local.  So a local symbol may carry monikers (`moniker_of_local`), and
`monikers_of_local` says which: those under which it was published before it ended.

`labelled_performed` is the invariant behind it, for all symbols: a node carries its primary
moniker and those under which it was published, and no others.
-/
import SymbolAtlas.Proofs.Session.Answers
import SymbolAtlas.Proofs.Session.Lifecycle
import SymbolAtlas.Proofs.Session.Monikers

set_option autoImplicit false

namespace SymbolAtlas.Session

variable {μ ω α β : Type} {c : Context μ ω}

/-! ## Publishing -/

/-- The moniker under which a document at a location publishes a symbol; the empty name is the
symbol's own. -/
def publishedMoniker (c : Context μ ω) (d : DocumentNode) (location : Location) (target : Symbol)
    (name : String) : Moniker where
  scheme := c.options.scheme
  identifier := Moniker.identifierOf location.path [if name = "" then target.name else name]
  kind := .ofExternal d.external
  package := location.package

/-- The key of the target of an alias, and the moniker under which a document publishes it;
nothing if the alias has no target or the document no location. -/
def targetMoniker (c : Context μ ω) (d : DocumentNode) (name : String) (alias_ : SymbolNode) :
    Option (String × Moniker) :=
  match alias_.variant with
  | some (.aliasOf (some target)) =>
      d.location.map fun location => (target.key, publishedMoniker c d location target name)
  | _ => none

/-- What is published when a declaration is left in `s` and the session comes to `s'`: its name
denotes an alias, and the current document publishes the target. -/
def publication (c : Context μ ω) (declaration : Node) (s s' : State μ ω) :
    Option (String × Moniker) := do
  let sym ← symbolPublished c.oracle declaration s.memory
  let name ← (c.oracle.exportAlias declaration.id s.memory).1
  let d ← s.current.bind s.documents.get?
  let n ← s'.symbols.get? sym.key
  targetMoniker c d name n

/-- Monikers with one more, unless one of them has its identifier. -/
def withMoniker (monikers : Array Moniker) (m : Moniker) : Array Moniker :=
  if monikers.any (·.identifier = m.identifier) then monikers else monikers.push m

theorem mem_withMoniker {monikers : Array Moniker} {m other : Moniker}
    (h : other ∈ withMoniker monikers m) : other ∈ monikers ∨ other = m := by
  unfold withMoniker at h
  split at h
  · exact .inl h
  · exact Array.mem_push.1 h

theorem mem_withMoniker_of_mem {monikers : Array Moniker} {m other : Moniker}
    (h : other ∈ monikers) : other ∈ withMoniker monikers m := by
  unfold withMoniker
  split
  · exact h
  · exact Array.mem_push_of_mem _ h

theorem carried_withMoniker (monikers : Array Moniker) (m : Moniker) :
    ∃ other ∈ withMoniker monikers m, other.identifier = m.identifier := by
  unfold withMoniker
  split
  · rename_i known
    obtain ⟨other, member, same⟩ := Array.any_eq_true'.1 known
    exact ⟨other, member, by simpa using same⟩
  · exact ⟨m, Array.mem_push_self, rfl⟩

theorem monikersAt_attachMoniker {key : String} {m : Moniker} {s s' : State μ ω} {u : Unit}
    {n : SymbolNode} (node : s.symbols.get? key = some n)
    (h : Yields (attachMoniker c key m) s u s') (other : String) :
    s'.monikersAt other =
      if key = other then withMoniker (s.monikersAt other) m else s.monikersAt other := by
  obtain ⟨-, ⟨⟨old, member, same⟩, rfl⟩ | ⟨new, rfl⟩⟩ := yields_attachMoniker node h
  · split
    · rename_i own
      rw [withMoniker, if_pos]
      rw [← own, monikersAt_of_node node]
      exact Array.any_eq_true'.2 ⟨old, member, by simpa using same⟩
    · rfl
  · rw [monikersAt_attached node]
    split
    · rename_i own
      rw [withMoniker, ← own, monikersAt_of_node node, if_neg]
      intro known
      obtain ⟨old, member, same⟩ := Array.any_eq_true'.1 known
      exact new old member (by simpa using same)
    · rfl

/-- The monikers of the symbol of `key` after a publication, which counts for a symbol that is
open. -/
def publishedTo (s : State μ ω) (key : String) (monikers : Array Moniker) :
    Option (String × Moniker) → Array Moniker
  | some (target, m) =>
      if target = key ∧ s.endedAt key = false then withMoniker monikers m else monikers
  | none => monikers

section Leave

variable {declaration : Node} {s s' : State μ ω} {path name : String} {d : DocumentNode} {u : Unit}

/-- A question that is asked before anything else. -/
theorem labelling_asked {memory : μ} (quiet : c.oracle.Quiet s.memory memory) :
    Labelling c s { s with memory } :=
  labelling_of_same (.single (.detail (.asked quiet))) (fun _ has => has) rfl

theorem endedAt_of_node {s : State μ ω} {key : String} {n : SymbolNode}
    (node : s.symbols.get? key = some n) : s.endedAt key = n.ended := by
  rw [State.endedAt, node]
  rfl

/-- Only the target of an alias is published. -/
theorem targetMoniker_of_other {n : SymbolNode}
    (other : ∀ target, n.variant ≠ some (.aliasOf (some target))) :
    targetMoniker c d name n = none := by
  unfold targetMoniker
  split
  · rename_i here
    exact absurd here (other _)
  · rfl

theorem targetMoniker_of_alias {n : SymbolNode} {target : Symbol}
    (variant : n.variant = some (.aliasOf (some target))) :
    targetMoniker c d name n =
      d.location.map fun location => (target.key, publishedMoniker c d location target name) := by
  rw [targetMoniker, variant]

theorem publishedTo_of_open {s : State μ ω} {target key : String} {m : Moniker}
    (open_ : s.endedAt target = false) (monikers : Array Moniker) :
    publishedTo s key monikers (some (target, m)) =
      if target = key then withMoniker monikers m else monikers := by
  rw [publishedTo]
  by_cases own : target = key
  · rw [if_pos own, if_pos ⟨own, own ▸ open_⟩]
  · rw [if_neg own, if_neg fun both => own both.1]

theorem publishedTo_of_ended {s : State μ ω} {target key : String} {m : Moniker}
    (ended : s.endedAt target = true) (monikers : Array Moniker) :
    publishedTo s key monikers (some (target, m)) = monikers := by
  rw [publishedTo, if_neg]
  rintro ⟨rfl, open_⟩
  rw [ended] at open_
  cases open_

/-- The target of the alias that the name of a declaration denotes is requested, and gets the
moniker of the document. -/
theorem monikersAt_linkExport {nameNode : NodeId} {sym : Symbol}
    (current : s.current = some path) (document : s.documents.get? path = some d)
    (named : declaration.nameNode = some nameNode)
    (found : (c.oracle.symbolAt nameNode s.memory).1 = some sym)
    (h : Yields (linkExport c declaration name) s u s') :
    ∃ t n, Labelling c s t ∧ Details c t s' ∧ s'.symbols.get? sym.key = some n ∧
      ∀ key, s'.monikersAt key =
        publishedTo s key (t.monikersAt key) (targetMoniker c d name n) := by
  obtain ⟨t₁, n, requested, node, exporting⟩ := exporting_linkExport current named found h
  have first : Labelling c s t₁ :=
    (labelling_asked (.symbolAt nameNode s.memory)).trans (labelling_symbolNode requested)
  have second {target : Symbol} {m : SymbolNode} {t₂ : State μ ω}
      (variant : n.variant = some (.aliasOf (some target)))
      (requested' : Yields (symbolNode c target (some nameNode)) t₁ target.key t₂)
      (targetNode : t₂.symbols.get? target.key = some m) :
      Labelling c s t₂ ∧ s.endedAt target.key = m.ended ∧
        ((t₂.documents.get? path).getD default).location = d.location ∧
        ((t₂.documents.get? path).getD default).external = d.external ∧
        ∃ n', t₂.symbols.get? sym.key = some n' ∧
          n'.variant = some (.aliasOf (some target)) := by
    have both := first.trans (labelling_symbolNode requested')
    obtain ⟨n', node', same⟩ := (resolution_symbolNode requested').2.kept sym.key n node
    obtain ⟨d', document', header⟩ := both.moves.steady.document document
    rw [document', Option.getD_some]
    refine ⟨both, ?_, (congrArg DocumentNode.location header :),
      (congrArg DocumentNode.external header :), n', node', (variant_of_core same).trans variant⟩
    rw [← congrFun both.moves.endedAt, endedAt_of_node targetNode]
  cases exporting with
  | other other =>
      refine ⟨s', n, first, .refl, node, fun key => ?_⟩
      rw [targetMoniker_of_other other]
      rfl
  | withheld variant requested' targetNode barred =>
      obtain ⟨labelling, ended, home, -, n', node', variant'⟩ :=
        second variant requested' targetNode
      refine ⟨s', n', labelling, .refl, node', fun key => ?_⟩
      rw [targetMoniker_of_alias variant']
      cases place : d.location with
      | none => rfl
      | some location =>
          have closed : _ = true := barred.resolve_left (by simp [home, place])
          exact (publishedTo_of_ended (ended.trans closed) _).symm
  | @published target m location t₂ t₃ _ variant requested' targetNode place open_ attached tallied =>
      obtain ⟨labelling, ended, home, external, n', node', variant'⟩ :=
        second variant requested' targetNode
      have details : Details c t₂ s' :=
        (details_attachMoniker targetNode attached).trans tallied.details
      obtain ⟨n'', node'', core⟩ := node_of_core details.core node'
      have counted : s'.monikersAt = t₃.monikersAt := by rcases tallied with rfl | rfl <;> rfl
      refine ⟨t₂, n'', labelling, details, node'', fun key => ?_⟩
      rw [targetMoniker_of_alias ((variant_of_core core).trans variant'), ← home, place,
        Option.map_some, publishedTo_of_open (ended.trans open_), counted,
        monikersAt_attachMoniker targetNode attached, external]
      rfl

/-- **What leaving a declaration does to monikers**: what is requested on the way gets primary
monikers, and then the publication counts. -/
theorem monikersAt_leave (ok : s.failure = none) (current : s.current = some path)
    (document : s.documents.get? path = some d) (h : Yields (leave c declaration) s u s') :
    ∃ t, Labelling c s t ∧ Details c t s' ∧ ∀ key, s'.monikersAt key =
      publishedTo s key (t.monikersAt key) (publication c declaration s s') := by
  cases published : symbolPublished c.oracle declaration s.memory with
  | none =>
      obtain ⟨memory, details, rfl⟩ := asking_leave current (.inr published) h
      refine ⟨_, labelling_of_same details.moves (fun _ has => has) rfl, .refl, fun key => ?_⟩
      rw [publication, published]
      rfl
  | some sym =>
      obtain ⟨name, nameNode, answer, named, found, linked⟩ := exporting_leave ok published h
      have asked := labelling_asked (c := c) (s := s) (.exportAlias declaration.id s.memory)
      obtain ⟨t, n, labelling, details, node, monikers⟩ :=
        monikersAt_linkExport (by exact current) (by exact document) named found linked
      refine ⟨t, asked.trans labelling, details, fun key => ?_⟩
      have here : publication c declaration s s' = targetMoniker c d name n := by
        simp only [publication, published, answer, current, Option.bind_some, document, node,
          Option.bind_eq_bind]
      rw [here]
      exact monikers key

end Leave

/-! ## Runs -/

/-- What a moment publishes that leads from `s` to `s'`; after a refusal nothing is. -/
def Moment.publication (c : Context μ ω) (s s' : State μ ω) : Moment → Option (String × Moniker)
  | .leaving declaration =>
      if s.failure.isSome then none else Session.publication c declaration s s'
  | _ => none

section Performed

variable {memory : μ} {output : ω} {first rest : List Moment} {s s' : State μ ω} {m : Moment}

/-- The visit of a node before its children attaches primary monikers only. -/
theorem labelling_enter {path : String} {n : Node} {d : DocumentNode} {b : Bool}
    (document : s.documents.get? path = some d) (h : Yields (enter c path n) s b s') :
    ∃ t, Labelling c s t ∧ Steps c t s' ∧ s'.coreAt = t.coreAt ∧
      s'.monikersAt = t.monikersAt := by
  obtain ⟨-, visited⟩ := yields_enter.1 h
  split at visited
  · have asked := labelling_asked (c := c) (s := s) (.symbolAt n.id s.memory)
    rcases yields_visitIdentifier document visited with
      ⟨-, rfl⟩ | ⟨sym, t, -, requested, recorded⟩
    · exact ⟨_, asked, .single (.passed _), rfl, rfl⟩
    · refine ⟨t, asked.trans (labelling_symbolNode requested), recorded.steps, ?_⟩
      rcases recorded.usage with rfl | usage
      · exact ⟨rfl, rfl⟩
      · exact ⟨usage.core, usage.monikersAt⟩
  · exact ⟨s, .refl s, visited ▸ .refl, visited ▸ rfl, visited ▸ rfl⟩

/-- **What a moment does to monikers**: what is requested on the way gets primary monikers, and
then the publication counts. -/
theorem monikersAt_performed (split : schedule c.oracle.files = first ++ m :: rest)
    (before : Yields (performAll c first) ((State.start c memory output).opened c) () s)
    (performed : Yields (m.perform c) s () s') :
    ∃ t, Labelling c s t ∧ Steps c t s' ∧ s'.coreAt = t.coreAt ∧ ∀ key, s'.monikersAt key =
      publishedTo s key (t.monikersAt key) (m.publication c s s') := by
  obtain ⟨situated, -, -⟩ := situated_performed split before
  have follows := follows_schedule split
  have effect := effect_performed split before performed
  cases m with
  | opening path =>
      rcases effect with effect | ⟨-, rfl⟩
      · have steps := effect.steps
        obtain ⟨-, -, rfl⟩ := effect
        exact ⟨s, .refl s, steps, rfl, fun _ => rfl⟩
      · exact ⟨s', .refl s', .refl, rfl, fun _ => rfl⟩
  | closing path =>
      rcases effect with effect | ⟨-, rfl⟩
      · have steps := effect.steps
        obtain ⟨d, t, document, writable, endings, same, frozen, rfl⟩ := effect
        have last : Ending c t (t.documentEnded c path d) :=
          .document (same ▸ document) writable frozen
        exact ⟨s, .refl s, steps, last.core.trans endings.core,
          fun key => congrFun (last.monikersAt.trans endings.monikersAt) key⟩
      · exact ⟨s', .refl s', .refl, rfl, fun _ => rfl⟩
  | entering path n =>
      obtain ⟨d, document, -⟩ := situated.opened path follows.1
      obtain ⟨_, _, entered, same⟩ := yields_bind.1 performed
      obtain ⟨-, rfl⟩ := yields_pure.1 same
      obtain ⟨t, labelling, steps, core, monikers⟩ := labelling_enter document entered
      exact ⟨t, labelling, steps, core, fun key => congrFun monikers key⟩
  | leaving n =>
      cases failed : s.failure with
      | some reason =>
          have idle := outcome_visit_of_failed (c := c) (m := .leaving n) (s := s) (by simp)
            (by simp [failed])
          obtain ⟨-, rfl⟩ := performed.unique idle
          refine ⟨s', .refl s', .refl, rfl, fun key => ?_⟩
          simp [Moment.publication, failed, publishedTo]
      | none =>
          obtain ⟨path, opened, unclosed⟩ := follows
          obtain ⟨d, document, -⟩ := situated.opened path opened
          obtain ⟨t, labelling, details, monikers⟩ :=
            monikersAt_leave failed (situated.current path opened unclosed) document performed
          refine ⟨t, labelling, details.steps, details.core, fun key => ?_⟩
          rw [monikers]
          simp [Moment.publication, failed]

/-- In this part of a schedule the symbol of a key was published under a moniker, when it was
still open. -/
def PublishedIn (c : Context μ ω) (memory : μ) (output : ω) (moments : List Moment)
    (key : String) (moniker : Moniker) : Prop :=
  ∃ before m after s s', moments = before ++ m :: after ∧
    Yields (performAll c before) ((State.start c memory output).opened c) () s ∧
    Yields (m.perform c) s () s' ∧
    m.publication c s s' = some (key, moniker) ∧ s.endedAt key = false

/-- What is published in one moment more was published before, or is by this moment. -/
theorem publishedIn_snoc (before : Yields (performAll c first)
      ((State.start c memory output).opened c) () s)
    (performed : Yields (m.perform c) s () s') {key : String} {moniker : Moniker} :
    PublishedIn c memory output (first ++ [m]) key moniker ↔
      PublishedIn c memory output first key moniker ∨
        m.publication c s s' = some (key, moniker) ∧ s.endedAt key = false := by
  constructor
  · rintro ⟨before', m', after, t, t', split, performed', there, published⟩
    rcases List.eq_nil_or_concat after with rfl | ⟨after, last, rfl⟩
    · obtain ⟨rfl, same⟩ := List.append_inj' split rfl
      obtain rfl := List.head_eq_of_cons_eq same
      obtain ⟨-, rfl⟩ := before.unique performed'
      obtain ⟨-, rfl⟩ := performed.unique there
      exact .inr published
    · have split : first ++ [m] = (before' ++ m' :: after) ++ [last] := by simpa using split
      obtain ⟨rfl, -⟩ := List.append_inj' split rfl
      exact .inl ⟨before', m', after, t, t', rfl, performed', there, published⟩
  · rintro (⟨before', m', after, t, t', rfl, rest⟩ | published)
    · exact ⟨before', m', after ++ [m], t, t', by simp, rest⟩
    · exact ⟨first, m, [], s, s', rfl, before, performed, published⟩

/-- Where the monikers of a node come from, when a part of the schedule has been performed: from
its declarations, which the oracle was asked about at `asked`, and from publications. -/
structure SymbolNode.Labelled (c : Context μ ω) (memory : μ) (output : ω)
    (moments : List Moment) (key : String) (n : SymbolNode) (asked : μ) : Prop where
  declared : n.Declared c memory asked
  sound : ∀ m ∈ n.monikers,
    n.primary c asked = some m ∨ PublishedIn c memory output moments key m
  primary : ∀ m, n.primary c asked = some m → m ∈ n.monikers
  published : ∀ m, PublishedIn c memory output moments key m →
    ∃ other ∈ n.monikers, other.identifier = m.identifier

theorem SymbolNode.Labelled.of_profile {moments : List Moment} {key : String}
    {n n' : SymbolNode} {asked : μ} (h : n.Labelled c memory output moments key asked)
    (same : n'.profile = n.profile) (monikers : n'.monikers = n.monikers) :
    n'.Labelled c memory output moments key asked := by
  refine ⟨h.declared.of_profile same, ?_, ?_, ?_⟩
  · rw [monikers, primary_of_profile same]
    exact h.sound
  · rw [monikers, primary_of_profile same]
    exact h.primary
  · rw [monikers]
    exact h.published

/-- No node is unfinished between two moments, also after a refusal. -/
theorem settled_performed (split : schedule c.oracle.files = first ++ rest)
    (performed : Yields (performAll c first) ((State.start c memory output).opened c) () s) :
    s.Settled := by
  induction first using List.reverseRecOn generalizing rest s with
  | nil =>
      obtain ⟨-, rfl⟩ := yields_pure.1 performed
      exact settled_opened memory output
  | append_singleton first m ih =>
      obtain ⟨t, before, last⟩ := yields_performAll_append.1 performed
      rw [performAll_singleton] at last
      have split : schedule c.oracle.files = first ++ m :: rest := by simpa using split
      have settled := ih split before
      rcases effect_performed split before last with effect | ⟨-, rfl⟩
      · exact (effect.settled settled).2
      · exact settled

/-- What is published belongs to a symbol that has a node. -/
theorem Moment.publication_has {key : String} {moniker : Moniker} (settled : s'.Settled)
    (published : m.publication c s s' = some (key, moniker)) : s'.Has key := by
  cases m with
  | opening path => cases published
  | closing path => cases published
  | entering path n => cases published
  | leaving declaration =>
      simp only [Moment.publication] at published
      split at published
      · cases published
      obtain ⟨sym, -, published⟩ := Option.bind_eq_some_iff.1 published
      obtain ⟨name, -, published⟩ := Option.bind_eq_some_iff.1 published
      obtain ⟨d, -, published⟩ := Option.bind_eq_some_iff.1 published
      obtain ⟨n, node, published⟩ := Option.bind_eq_some_iff.1 published
      unfold targetMoniker at published
      split at published
      · rename_i target variant
        obtain ⟨location, -, same⟩ := Option.map_eq_some_iff.1 published
        obtain ⟨n', v, node', variant', links, -⟩ := settled sym.key ⟨n, node⟩
        obtain rfl := Option.some.inj (node.symm.trans node')
        obtain rfl := Option.some.inj (variant.symm.trans variant')
        exact (Prod.mk.inj same).1 ▸ links target (by simp [Variant.links])
      · cases published

theorem has_of_publishedIn (split : schedule c.oracle.files = first ++ rest)
    (performed : Yields (performAll c first) ((State.start c memory output).opened c) () s)
    {key : String} {moniker : Moniker} (h : PublishedIn c memory output first key moniker) :
    s.Has key := by
  obtain ⟨before, m, after, t, t', rfl, performed', there, published, -⟩ := h
  have first_ : Yields (performAll c (before ++ [m]))
      ((State.start c memory output).opened c) () t' :=
    yields_performAll_append.2 ⟨t, performed', by rwa [performAll_singleton]⟩
  have split' : schedule c.oracle.files = (before ++ [m]) ++ (after ++ rest) := by
    simpa using split
  obtain ⟨v, again, later⟩ := yields_performAll_append.1
    (show Yields (performAll c ((before ++ [m]) ++ after)) _ () s by simpa using performed)
  obtain ⟨-, rfl⟩ := first_.unique again
  obtain ⟨n, node⟩ := Moment.publication_has (settled_performed split' first_) published
  obtain ⟨n', node', -⟩ := (steps_performed split' first_ later).profile node
  exact ⟨n', node'⟩

/-- A moment more: the publication counts. -/
theorem SymbolNode.Labelled.moment {key : String} {n n' : SymbolNode} {asked : μ}
    (h : n.Labelled c memory output first key asked) (same : n'.profile = n.profile)
    (before : Yields (performAll c first) ((State.start c memory output).opened c) () s)
    (performed : Yields (m.perform c) s () s')
    (monikers : n'.monikers = publishedTo s key n.monikers (m.publication c s s')) :
    n'.Labelled c memory output (first ++ [m]) key asked := by
  have here : ∀ moniker, PublishedIn c memory output (first ++ [m]) key moniker ↔ _ :=
    fun moniker => publishedIn_snoc before performed
  have kept : ∀ other ∈ n.monikers, other ∈ n'.monikers := by
    intro other member
    rw [monikers]
    unfold publishedTo
    split
    · split
      · exact mem_withMoniker_of_mem member
      · exact member
    · exact member
  refine ⟨h.declared.of_profile same, fun other member => ?_, fun other primary => ?_,
    fun moniker published => ?_⟩
  · rw [primary_of_profile same, here]
    have old : other ∈ n.monikers → n.primary c asked = some other ∨
        PublishedIn c memory output first key other ∨
          m.publication c s s' = some (key, other) ∧ s.endedAt key = false :=
      fun member => (h.sound other member).imp_right .inl
    rw [monikers] at member
    cases publication : m.publication c s s' with
    | none =>
        rw [publication] at member
        exact publication ▸ old member
    | some given =>
        obtain ⟨target, given⟩ := given
        rw [publication, publishedTo] at member
        split at member
        · rename_i counts
          rcases mem_withMoniker member with member | rfl
          · exact publication ▸ old member
          · exact .inr (.inr ⟨by rw [counts.1], counts.2⟩)
        · exact publication ▸ old member
  · rw [primary_of_profile same] at primary
    exact kept other (h.primary other primary)
  · rcases (here moniker).1 published with earlier | ⟨publication, open_⟩
    · obtain ⟨other, member, identifier⟩ := h.published moniker earlier
      exact ⟨other, kept other member, identifier⟩
    · rw [monikers, publication, publishedTo, if_pos ⟨rfl, open_⟩]
      exact carried_withMoniker n.monikers moniker

/-- **Whatever part of its schedule a run has performed**, every node carries its primary moniker
and those under which it was published while it was open, and no others. -/
theorem labelled_performed (split : schedule c.oracle.files = first ++ rest)
    (performed : Yields (performAll c first) ((State.start c memory output).opened c) () s)
    {key : String} {n : SymbolNode} (node : s.symbols.get? key = some n) :
    ∃ asked, c.oracle.Later asked s.memory ∧
      n.Labelled c memory output first key asked := by
  induction first using List.reverseRecOn generalizing rest s n with
  | nil =>
      obtain ⟨-, rfl⟩ := yields_pure.1 performed
      simp [State.opened, State.emitted, State.start] at node
  | append_singleton first m ih =>
      obtain ⟨t, before, last⟩ := yields_performAll_append.1 performed
      rw [performAll_singleton] at last
      have split : schedule c.oracle.files = first ++ m :: rest := by simpa using split
      obtain ⟨u, labelling, steps, core, monikers⟩ := monikersAt_performed split before last
      obtain ⟨nᵤ, nodeᵤ, same⟩ := node_of_core core.symm node
      have gained : n.monikers = publishedTo t key nᵤ.monikers (m.publication c t s) := by
        rw [← monikersAt_of_node node, ← monikersAt_of_node nodeᵤ]
        exact monikers key
      have requested : ∃ asked, c.oracle.Later asked u.memory ∧
          nᵤ.Labelled c memory output first key asked := by
        cases here : t.symbols.get? key with
        | some nₜ =>
            obtain ⟨asked, later, labelled⟩ := ih split before here
            obtain ⟨n', node', same'⟩ := labelling.moves.steps.profile here
            obtain rfl := Option.some.inj (nodeᵤ.symm.trans node')
            have kept := labelling.kept key ⟨nₜ, here⟩
            rw [monikersAt_of_node nodeᵤ, monikersAt_of_node here] at kept
            exact ⟨asked, later.trans labelling.moves.steps.later,
              labelled.of_profile same' kept⟩
        | none =>
            have absent : ¬ t.Has key := by
              rintro ⟨n', node'⟩
              rw [here] at node'
              cases node'
            obtain ⟨asked, declared, later, own⟩ := labelling.new key nᵤ nodeᵤ absent
            have started : c.oracle.Later memory t.memory :=
              (situated_performed split before).2.1.later
            refine ⟨asked, later, declared.sooner started, ?_, ?_, ?_⟩
            · intro moniker member
              rw [own] at member
              exact .inl (by simpa using member)
            · intro moniker primary
              rw [own, primary]
              simp
            · intro moniker published
              exact absurd (has_of_publishedIn split before published) absent
      obtain ⟨asked, later, labelled⟩ := requested
      exact ⟨asked, later.trans steps.later,
        labelled.moment (profile_of_core same.symm) before last gained⟩

/-- **Which monikers a local symbol carries.**  Whatever part of its schedule a run has performed,
and however far it is with its endings: a local symbol carries no primary moniker, only such
as it was published under while it was open, and for each of these one with its identifier. -/
theorem monikers_of_local (split : schedule c.oracle.files = first ++ rest)
    (performed : Yields (performAll c first) ((State.start c memory output).opened c) () s)
    (endings : Endings c s s') {key : String} {n : SymbolNode}
    (node : s'.symbols.get? key = some n) (local_ : n.isLocal = true) :
    (∀ m ∈ n.monikers, PublishedIn c memory output first key m) ∧
      ∀ m, PublishedIn c memory output first key m →
        ∃ other ∈ n.monikers, other.identifier = m.identifier := by
  obtain ⟨before, node', same⟩ := node_of_core endings.core.symm node
  have monikers : n.monikers = before.monikers := by
    rw [← monikersAt_of_node node, ← monikersAt_of_node node', endings.monikersAt]
  obtain ⟨asked, -, labelled⟩ := labelled_performed split performed node'
  have labelled := labelled.of_profile (profile_of_core same.symm) monikers
  refine ⟨fun m member => ?_, labelled.published⟩
  rcases labelled.sound m member with primary | published
  · rw [primary_of_local local_] at primary
    cases primary
  · exact published

end Performed

/-! ### A local symbol that is published -/

/-- A function with a variable in its block, and an alias of the variable that is exported. -/
def republished : Sketch :=
  let (file, s) := Sketch.addFile {} "a.go"
  let (alias_, s) := s.addSymbol "X" "X" {}
  let (target, s) := s.addSymbol "y" "y" {}
  let s := s.setAlias alias_ (some target)
  let (function, s) := s.declare file .function "g"
  let (block, s) := s.addChild function .block ""
  let (_, s) := s.define block .variable "y" target
  let (declaration, s) := s.define file .typeDecl "X" alias_
  s.setExportAlias declaration "X"

/-- The session over `republished` that nobody listens to, when its schedule is performed. -/
def republishedState : State Sketch.AliasLog Unit :=
  (outcome (performAll (Context.ofSketch republished) (schedule republished.oracle.files))
    ((State.start (Context.ofSketch republished) [] ()).opened
      (Context.ofSketch republished))).2

theorem performed_republished :
    Yields (performAll (Context.ofSketch republished) (schedule republished.oracle.files))
      ((State.start (Context.ofSketch republished) [] ()).opened (Context.ofSketch republished))
      () republishedState :=
  yields_of_answer (by decide +kernel)

/-- The variable is local and carries the moniker of the alias. -/
theorem moniker_of_local : ∃ stats s' n,
    Yields (run (Context.ofSketch republished) false)
      (.start (Context.ofSketch republished) [] ()) (stats, none) s' ∧
    s'.symbols.get? "y" = some n ∧ n.isLocal = true ∧
    n.monikers.map (·.identifier) = #["p:X"] := by
  have ran : (outcome (run (Context.ofSketch republished) false)
      (.start (Context.ofSketch republished) [] ())).1.toOption =
        some ({ documents := 1, symbols := 2, definitions := 2, monikers := 1,
                exportAliases := 1, skipped := 1 }, none) := by
    decide +kernel
  have found : ((outcome (run (Context.ofSketch republished) false)
      (.start (Context.ofSketch republished) [] ())).2.symbols.get? "y").map
        (fun n => (n.isLocal, n.monikers.map (·.identifier))) = some (true, #["p:X"]) := by
    decide +kernel
  obtain ⟨n, node, same⟩ := Option.map_eq_some_iff.1 found
  exact ⟨_, _, n, yields_of_answer ran, node, congrArg Prod.fst same, congrArg Prod.snd same⟩

theorem monikers_of_local_republished :
    ∃ n, republishedState.symbols.get? "y" = some n ∧ n.isLocal = true ∧
      n.monikers.map (·.identifier) = #["p:X"] ∧
      ∀ m ∈ n.monikers, PublishedIn (Context.ofSketch republished) [] ()
        (schedule republished.oracle.files) "y" m := by
  have found : (republishedState.symbols.get? "y").map
      (fun n => (n.isLocal, n.monikers.map (·.identifier))) = some (true, #["p:X"]) := by
    decide +kernel
  obtain ⟨n, node, same⟩ := Option.map_eq_some_iff.1 found
  have local_ : n.isLocal = true := congrArg Prod.fst same
  have split : schedule (Context.ofSketch republished).oracle.files =
      schedule republished.oracle.files ++ [] := by simp [Context.ofSketch]
  exact ⟨n, node, local_, congrArg Prod.snd same,
    (monikers_of_local split performed_republished .refl node local_).1⟩

end SymbolAtlas.Session
