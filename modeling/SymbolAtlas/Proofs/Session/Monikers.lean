/-
# SymbolAtlas.Proofs.Session.Monikers -- the monikers of new symbols

When the node of a symbol is made, the symbol gets its primary moniker, if it is addressed
through its own declarations and these agree on an exported name (`SymbolNode.primary`).  A
local symbol has none (`primary_of_local`).

A request for a node attaches primary monikers to the nodes that it makes and nothing to those
that were there (`labelling_symbolNode`).  All other operations of a visit attach nothing at
all, which is read off their text: `Keeps view m` says that `m` leaves a view of the state
alone, and is closed under the ways to put operations together.
-/
import SymbolAtlas.Proofs.Session.Course
import SymbolAtlas.Proofs.Session.Questions
import SymbolAtlas.Proofs.Session.Requests

set_option autoImplicit false

namespace SymbolAtlas.Session

variable {μ ω α β : Type} {c : Context μ ω}

/-! ## Operations that keep a view of the state -/

/-- Whatever comes out of `m`, the view of the state is the same. -/
def Keeps {γ : Type} (view : State μ ω → γ) (m : Indexing μ ω α) : Prop :=
  ∀ s a s', Yields m s a s' → view s' = view s

section Keeps

variable {γ : Type} {view : State μ ω → γ}

theorem Keeps.pure (a : α) : Keeps view (pure a : Indexing μ ω α) := by
  intro s _ _ h
  rw [(yields_pure.1 h).2]

theorem Keeps.throw (e : Broken) : Keeps view (throw e : Indexing μ ω α) :=
  fun _ _ _ h => absurd h yields_throw

theorem Keeps.get : Keeps view (get : Indexing μ ω (State μ ω)) := by
  intro s _ _ h
  rw [(yields_get.1 h).2]

theorem Keeps.bind {m : Indexing μ ω α} {f : α → Indexing μ ω β} (first : Keeps view m)
    (second : ∀ a, Keeps view (f a)) : Keeps view (m >>= f) := by
  intro s b s' h
  obtain ⟨a, t, here, there⟩ := yields_bind.1 h
  exact (second a t b s' there).trans (first s a t here)

theorem Keeps.modify {f : State μ ω → State μ ω} (same : ∀ s, view (f s) = view s) :
    Keeps view (modify f : Indexing μ ω PUnit) := by
  intro s _ _ h
  rw [yields_modify.1 h, same]

theorem Keeps.forIn {ι : Type} {xs : List ι} {f : ι → Indexing μ ω (ForInStep PUnit)}
    (each : ∀ x, Keeps view (f x)) : Keeps view (forIn xs PUnit.unit fun x _ => f x) := by
  induction xs with
  | nil => exact .pure _
  | cons x xs ih =>
      rw [List.forIn_cons]
      refine .bind (each x) fun step => ?_
      cases step with
      | done u => exact .pure _
      | yield u => exact ih

end Keeps

/-! ## The monikers of a state -/

/-- The monikers of the symbol of a key; it has none as long as it has no node. -/
def State.monikersAt (s : State μ ω) (key : String) : Array Moniker :=
  ((s.symbols.get? key).getD default).monikers

theorem monikersAt_of_node {s : State μ ω} {key : String} {n : SymbolNode}
    (node : s.symbols.get? key = some n) : s.monikersAt key = n.monikers := by
  rw [State.monikersAt, node]
  rfl

theorem monikersAt_of_absent {s : State μ ω} {key : String}
    (absent : s.symbols.get? key = none) : s.monikersAt key = #[] := by
  rw [State.monikersAt, absent]
  rfl

theorem monikersAt_modify {s s' : State μ ω} {key : String} {f : SymbolNode → SymbolNode}
    (changed : s'.symbols = s.symbols.modify key f)
    (same : ∀ n, (f n).monikers = n.monikers) : s'.monikersAt = s.monikersAt := by
  funext other
  unfold State.monikersAt
  rw [changed, Table.get?_modify]
  split
  · cases s.symbols.get? other with
    | none => rfl
    | some n => exact same n
  · rfl

theorem Linking.monikersAt {s s' : State μ ω} (h : Linking c s s') :
    s'.monikersAt = s.monikersAt := by
  funext key
  cases node : s.symbols.get? key with
  | none =>
      cases node' : s'.symbols.get? key with
      | none => rw [monikersAt_of_absent node, monikersAt_of_absent node']
      | some n' =>
          obtain ⟨n, node''⟩ := h.same key ⟨n', node'⟩
          rw [node] at node''
          cases node''
  | some n =>
      obtain ⟨n', node', same⟩ := h.monikers key n node
      rw [monikersAt_of_node node, monikersAt_of_node node', same]

theorem Ending.monikersAt {s s' : State μ ω} (h : Ending c s s') :
    s'.monikersAt = s.monikersAt := by
  cases h with
  | symbol => exact monikersAt_modify rfl fun _ => rfl
  | @document path d document writable frozen =>
      obtain ⟨_, _, _, same⟩ := s.documentEnded_eq (c := c) path d
      rw [same]
      rfl

theorem Endings.monikersAt {s s' : State μ ω} (h : Endings c s s') :
    s'.monikersAt = s.monikersAt := by
  induction h with
  | refl => rfl
  | tail _ last ih => exact last.monikersAt.trans ih

theorem monikersAt_foldl_forwarded (path : String) (document id : Graph.Id) (keys : List String)
    (s : State μ ω) :
    (keys.foldl (State.forwarded path document id) s).monikersAt = s.monikersAt :=
  same_foldl_forwarded (fun _ _ => monikersAt_modify rfl fun _ => rfl) keys s

theorem Usage.monikersAt {s s' : State μ ω} (h : Usage c s s') :
    s'.monikersAt = s.monikersAt := by
  cases h with
  | marked => exact monikersAt_modify rfl fun _ => rfl
  | referred =>
      rw [monikersAt_foldl_forwarded]
      exact monikersAt_modify rfl fun _ => rfl

/-! ## Operations that attach nothing -/

/-- The operation attaches no moniker. -/
abbrev Unlabelling (m : Indexing μ ω α) : Prop := Keeps State.monikersAt m

namespace Unlabelling

theorem emit (body : Graph.Body) : Unlabelling (emit c body) := by
  intro s _ _ h
  rw [(yields_emit.1 h).2]
  rfl

theorem ask (question : StateM μ α) : Unlabelling (ask question : Indexing μ ω α) := by
  intro s _ _ h
  rw [(yields_ask.1 h).2]
  rfl

theorem nodeOf (id : NodeId) : Unlabelling (nodeOf c id) := by
  intro s _ _ h
  rw [(yields_nodeOf.1 h).2]

theorem nodesOf (ids : List NodeId) : Unlabelling (ids.mapM (Session.nodeOf c)) := by
  intro s _ _ h
  rw [(yields_mapM_nodeOf.1 h).2]

theorem lookup (key : String) : Unlabelling (lookup key : Indexing μ ω SymbolNode) := by
  intro s _ _ h
  rw [(yields_lookup.1 h).2]

theorem markOf (declaration : Node) : Unlabelling (markOf c declaration) := by
  intro s _ _ h
  rw [(yields_markOf.1 h).2]

theorem requireOpen (key : String) (addition : Addition) :
    Unlabelling (requireOpen key addition : Indexing μ ω Unit) := by
  intro s _ _ h
  rw [(yields_requireOpen.1 h).2]

theorem modifySymbol {key : String} {f : SymbolNode → SymbolNode}
    (same : ∀ n, (f n).monikers = n.monikers) :
    Unlabelling (modifySymbol key f : Indexing μ ω Unit) :=
  .modify fun _ => monikersAt_modify rfl same

theorem document (path : String) : Unlabelling (document c path) := by
  intro s d s' h
  cases present : s.documents.get? path with
  | some d' => rw [((yields_document_of_present present).1 h).2]
  | none =>
      rw [((yields_document_of_absent present).1 h).2]
      rfl

theorem addRange (path : String) (range : Graph.Range) : Unlabelling (addRange c path range) := by
  refine .bind (document path) fun d => ?_
  split
  · exact .throw _
  · exact .bind (emit _) fun _ => .bind (.modify fun _ => rfl) fun _ => .pure _

theorem recordDefinition (key path : String) (declaration : Node) :
    Unlabelling (recordDefinition c key path declaration) := by
  refine .bind (requireOpen _ _) fun _ => .bind (markOf _) fun _ => .bind (lookup _) fun n => ?_
  split
  · exact .pure _
  · refine .bind (modifySymbol fun _ => rfl) fun _ => .bind (addRange _ _) fun _ => ?_
    refine .bind (.bind .get fun _ => .pure _) fun _ => ?_
    exact .bind (modifySymbol fun _ => rfl) fun _ => .modify fun _ => rfl

theorem recordEarly (key : String) (declaration : Node) :
    Unlabelling (recordEarly c key declaration) := by
  refine .bind .get fun s => ?_
  split
  · exact .pure _
  · refine .bind (document _) fun d => ?_
    split
    · exact .pure _
    · exact recordDefinition _ _ _

theorem attachHover (key : String) : Unlabelling (attachHover c key) := by
  refine .bind (lookup key) fun n => ?_
  split
  · exact .pure _
  · refine .bind (nodesOf _) fun declarations => ?_
    split
    · exact .pure _
    · refine .bind (ask _) fun answer => ?_
      split
      · exact .pure _
      · split
        · exact .pure _
        · exact .bind (emit _) fun _ => .bind (emit _) fun _ => .pure _

/-- The loop that puts the declarations of a symbol on record. -/
theorem declarations (key : String) (ids : List NodeId) :
    Unlabelling (forIn ids PUnit.unit fun id _ => do
      let declaration ← Session.nodeOf c id
      let mark ← Session.markOf c declaration
      Session.modifySymbol key fun n =>
        { n with sites := n.sites.insert (Site.ofNode mark) id }
      Session.recordEarly c key declaration
      pure (ForInStep.yield PUnit.unit)) := by
  refine .forIn fun id => .bind (nodeOf id) fun _ => .bind (markOf _) fun _ => ?_
  exact .bind (modifySymbol fun _ => rfl) fun _ => .bind (recordEarly _ _) fun _ => .pure _

end Unlabelling

/-! ## The primary moniker -/

/-- The moniker of an exported symbol whose declarations agree on their package; `memory` is
that of the oracle when it is asked.  A local symbol has none. -/
def SymbolNode.exported (c : Context μ ω) (n : SymbolNode) (memory : μ) : Option Moniker :=
  if n.isLocal || n.declarations.isEmpty then none
  else
    let answer := c.oracle.exportPath n.symbol memory
    answer.1.bind fun segments =>
      ((locations? c (n.declarations.map (c.oracle.node · answer.2))).bind
        Location.agree).map fun location =>
          { scheme := c.options.scheme
            identifier := Moniker.identifierOf location.path segments
            kind := .ofExternal location.external
            package := location.package }

/-- The moniker of a symbol that is addressed through its own declarations. -/
def SymbolNode.primary (c : Context μ ω) (n : SymbolNode) (memory : μ) : Option Moniker :=
  match n.variant with
  | some .standard | some (.method ..) => n.exported c memory
  | _ => none

/-- A local symbol has no primary moniker. -/
theorem primary_of_local {n : SymbolNode} (local_ : n.isLocal = true) (memory : μ) :
    n.primary c memory = none := by
  unfold SymbolNode.primary
  split <;> simp [SymbolNode.exported, local_]

theorem primary_of_profile {n n' : SymbolNode} (same : n'.profile = n.profile) :
    n'.primary c = n.primary c := by
  have profile : ∀ n : SymbolNode, n.primary c = n.profile.primary c := fun _ => rfl
  rw [profile n', profile n, same]

/-- A symbol that carries nothing yet gets a moniker. -/
theorem yields_attachMoniker_first {key : String} {m : Moniker} {s s' : State μ ω} {u : Unit}
    {n : SymbolNode} (node : s.symbols.get? key = some n) (first : n.monikers = #[])
    (h : Yields (attachMoniker c key m) s u s') : s' = s.attached c key n m := by
  obtain ⟨-, ⟨⟨other, member, -⟩, -⟩ | ⟨-, attached⟩⟩ := yields_attachMoniker node h
  · simp [first] at member
  · exact attached

theorem monikersAt_attached {s : State μ ω} {key : String} {n : SymbolNode}
    (node : s.symbols.get? key = some n) (m : Moniker) (other : String) :
    (s.attached c key n m).monikersAt other =
      if key = other then n.monikers.push m else s.monikersAt other := by
  show (((s.symbols.modify key _).get? other).getD default).monikers = _
  rw [Table.get?_modify]
  split
  · rename_i own
    rw [← own, node]
    rfl
  · rfl

/-- What `other` carries once the symbol of `key`, which carried nothing, was given what there
is for it. -/
def State.given (s : State μ ω) (key : String) (moniker : Option Moniker) (other : String) :
    Array Moniker :=
  if key = other then moniker.toArray else s.monikersAt other

theorem given_none {s : State μ ω} {key : String} {n : SymbolNode}
    (node : s.symbols.get? key = some n) (first : n.monikers = #[]) (other : String) :
    s.given key none other = s.monikersAt other := by
  unfold State.given
  split
  · rename_i own
    rw [← own, monikersAt_of_node node, first]
    rfl
  · rfl

theorem monikersAt_attachExported {key : String} {s s' : State μ ω} {u : Unit} {n : SymbolNode}
    (node : s.symbols.get? key = some n) (first : n.monikers = #[])
    (h : Yields (attachExported c key n) s u s') (other : String) :
    s'.monikersAt other = s.given key (n.exported c s.memory) other := by
  rw [attachExported] at h
  unfold SymbolNode.exported
  by_cases barred : (n.isLocal || n.declarations.isEmpty) = true
  · rw [if_pos barred] at h ⊢
    obtain ⟨-, rfl⟩ := yields_pure.1 h
    exact (given_none node first other).symm
  rw [if_neg barred] at h ⊢
  rw [yields_ask_bind] at h
  cases path : (c.oracle.exportPath n.symbol s.memory).1 with
  | none =>
      simp only [path] at h
      simp only [path, Option.bind_none]
      obtain ⟨-, rfl⟩ := yields_pure.1 h
      exact (given_none node first other).symm
  | some segments =>
      simp only [path, yields_nodesOf_bind] at h
      simp only [path, Option.bind_some]
      split at h
      · rename_i disagree
        obtain ⟨-, rfl⟩ := yields_pure.1 h
        rw [disagree]
        exact (given_none node first other).symm
      · rename_i location agreed
        rw [agreed, yields_attachMoniker_first (by exact node) first h,
          monikersAt_attached (by exact node), first]
        rfl

/-- A new symbol gets its primary moniker, if it has one. -/
theorem monikersAt_attachPrimary {key : String} {s s' : State μ ω} {u : Unit} {n : SymbolNode}
    (node : s.symbols.get? key = some n) (first : n.monikers = #[])
    (h : Yields (attachPrimary c key) s u s') (other : String) :
    s'.monikersAt other = s.given key (n.primary c s.memory) other := by
  simp only [attachPrimary, yields_lookup_bind, node, Option.getD_some] at h
  unfold SymbolNode.primary
  rcases variant : n.variant with _ | ⟨_ | _ | _ | _ | _⟩
  case some.standard | some.method =>
    simp only [variant] at h
    exact monikersAt_attachExported node first h other
  all_goals
    simp only [variant] at h
    obtain ⟨-, rfl⟩ := yields_pure.1 h
    exact (given_none node first other).symm

/-! ## Requests -/

/-- The oracle told, some time between `start` and `m`, what the declarations of a node are. -/
def SymbolNode.Declared (c : Context μ ω) (n : SymbolNode) (start m : μ) : Prop :=
  ∃ (use : Option NodeId) (v : Variant) (m₁ m₂ : μ), n.variant = some v ∧
    c.oracle.Later start m₁ ∧ (n.declarations, m₂) = v.declarationsOf c.oracle n.symbol use m₁ ∧
    c.oracle.Later m₂ m

theorem SymbolNode.Declared.sooner {n : SymbolNode} {start start' m : μ}
    (h : n.Declared c start' m) (later : c.oracle.Later start start') : n.Declared c start m := by
  obtain ⟨use, v, m₁, m₂, variant, asked, declared, rest⟩ := h
  exact ⟨use, v, m₁, m₂, variant, later.trans asked, declared, rest⟩

theorem SymbolNode.Declared.of_profile {n n' : SymbolNode} {start m : μ}
    (h : n.Declared c start m) (same : n'.profile = n.profile) : n'.Declared c start m := by
  obtain ⟨use, v, m₁, m₂, variant, asked, declared, rest⟩ := h
  refine ⟨use, v, m₁, m₂, (variant_of_profile same).trans variant, asked, ?_, rest⟩
  rw [declarations_of_profile same, symbol_of_profile same]
  exact declared

/-- What a request does to monikers: symbols that have nodes keep theirs, and one that gets its
node gets its primary moniker, which is asked for when its declarations are known. -/
structure Labelling (c : Context μ ω) (s s' : State μ ω) : Prop where
  moves : Moves c s s'
  kept : ∀ key, s.Has key → s'.monikersAt key = s.monikersAt key
  new : ∀ key n, s'.symbols.get? key = some n → ¬ s.Has key → ∃ m, n.Declared c s.memory m ∧
    c.oracle.Later m s'.memory ∧ n.monikers = (n.primary c m).toArray

theorem Labelling.refl (s : State μ ω) : Labelling c s s :=
  ⟨.refl, fun _ _ => rfl, fun _ n node absent => absurd ⟨n, node⟩ absent⟩

/-- What only adds to nodes that are there, and attaches nothing. -/
theorem labelling_of_same {s s' : State μ ω} (moves : Moves c s s')
    (same : ∀ key, s'.Has key → s.Has key) (monikers : s'.monikersAt = s.monikersAt) :
    Labelling c s s' :=
  ⟨moves, fun key _ => congrFun monikers key, fun key n node absent =>
    absurd (same key ⟨n, node⟩) absent⟩

theorem Labelling.trans {s t s' : State μ ω} (first : Labelling c s t)
    (second : Labelling c t s') : Labelling c s s' := by
  refine ⟨first.moves.trans second.moves, fun key has => ?_, fun key n node absent => ?_⟩
  · obtain ⟨n, node⟩ := has
    obtain ⟨n', node', -⟩ := first.moves.steps.profile node
    exact (second.kept key ⟨n', node'⟩).trans (first.kept key ⟨n, node⟩)
  · cases here : t.symbols.get? key with
    | none =>
        obtain ⟨m, declared, later, monikers⟩ :=
          second.new key n node (by rintro ⟨n', node'⟩; rw [here] at node'; cases node')
        exact ⟨m, declared.sooner first.moves.steps.later, later, monikers⟩
    | some n' =>
        obtain ⟨m, declared, later, monikers⟩ := first.new key n' here absent
        obtain ⟨n'', node'', same⟩ := second.moves.steps.profile here
        obtain rfl := Option.some.inj (node.symm.trans node'')
        have kept := second.kept key ⟨n', here⟩
        rw [monikersAt_of_node node, monikersAt_of_node here] at kept
        refine ⟨m, declared.of_profile same, later.trans second.moves.steps.later, ?_⟩
        rw [kept, primary_of_profile same]
        exact monikers

theorem labelling_establish {sym : Symbol} {use : Option NodeId} {s s' : State μ ω} {v : Variant}
    (absent : s.symbols.get? sym.key = none)
    (h : Yields (establish c sym use)
      { s with symbols := s.symbols.insert sym.key { symbol := sym } } v s') :
    Labelling c s s' := by
  obtain ⟨⟨v', declarations⟩, t, enrolled, h⟩ := yields_bind.1 h
  obtain ⟨name, namer, m₁, m₂, m₃, classified, declared, called, rfl⟩ := yields_enroll enrolled
  obtain ⟨_, t₁, primary, h⟩ := yields_bind.1 h
  obtain ⟨_, t₂, hover, h⟩ := yields_bind.1 h
  obtain ⟨_, t₃, sites, h⟩ := yields_bind.1 h
  obtain ⟨rfl, rfl⟩ := yields_pure.1 h
  let made := nodeOfSymbol sym v declarations name (s.lastId + 1)
  have node : (s.enrolled c sym v declarations name namer m₃).symbols.get? sym.key =
      some made := by
    rw [get?_enrolled, if_pos rfl]
  have details₁ := details_attachPrimary node primary
  obtain ⟨n₁, node₁, -⟩ := node_of_core details₁.core node
  have details₂ : Details c _ t₂ := details₁.trans (details_attachHover node₁ hover)
  obtain ⟨n₂, node₂, same₂⟩ := node_of_core details₂.core node
  have chosen : declarations ⊆ n₂.declarations := by
    rw [declarations_of_core same₂]
    exact List.Subset.refl _
  have details : Details c _ s' := details₂.trans (details_forIn_declarations node₂ chosen sites).1
  have monikers : ∀ key, s'.monikersAt key =
      if sym.key = key then (made.primary c m₃).toArray else s.monikersAt key := by
    intro key
    rw [Unlabelling.declarations _ _ _ _ _ sites, Unlabelling.attachHover _ _ _ _ hover,
      monikersAt_attachPrimary node rfl primary, State.given]
    split
    · rfl
    · rename_i other
      unfold State.monikersAt
      rw [get?_enrolled, if_neg other]
  refine ⟨.head (.growth (.enrolled absent classified declared called)) details.moves,
    fun key has => ?_, fun key n here new => ?_⟩
  · rw [monikers, if_neg]
    rintro rfl
    obtain ⟨n, there⟩ := has
    rw [absent] at there
    cases there
  · obtain ⟨n', node', same⟩ := node_of_core details.core.symm here
    rw [get?_enrolled] at node'
    split at node'
    · rename_i own
      obtain rfl := Option.some.inj node'
      have same' : n.profile = made.profile := profile_of_core same.symm
      have asked : c.oracle.Later s.memory m₁ := by
        rw [show m₁ = _ from congrArg Prod.snd classified]
        exact c.oracle.later_classify sym use s.memory
      have named : c.oracle.Later m₂ m₃ := by
        rw [show m₃ = _ from congrArg Prod.snd called]
        exact (c.oracle.hushed_nameFirst? declarations s.namer m₂).later
      have told : made.Declared c s.memory m₃ := ⟨use, v, m₁, m₂, rfl, asked, declared, named⟩
      refine ⟨m₃, told.of_profile same', details.moves.steps.later, ?_⟩
      rw [← monikersAt_of_node here, monikers, if_pos own, primary_of_profile same']
    · exact absurd ⟨_, node'⟩ new

theorem requesting_labelling (use : Option NodeId) :
    Requesting c use (fun _ _ => True) (Labelling c) where
  refl := .refl
  trans := .trans
  leads _ := trivial
  made _ := labelling_establish
  linked h := labelling_of_same (.single h.move) h.same h.monikersAt

/-- A request attaches primary monikers only. -/
theorem labelling_symbolNode {sym : Symbol} {use : Option NodeId} {s s' : State μ ω} {key : String}
    (h : Yields (symbolNode c sym use) s key s') : Labelling c s s' :=
  (requesting_labelling use).symbolNode trivial h

end SymbolAtlas.Session
