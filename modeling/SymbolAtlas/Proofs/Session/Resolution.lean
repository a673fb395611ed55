/-
# SymbolAtlas.Proofs.Session.Resolution -- what a request for a node brings about

A request for the node of a symbol makes, on its way, the nodes of everything the
symbol is linked to: the target of an alias, the members that a member builds on.
`Resolution c s s' root` says what such a request for `root` does:

* nodes that existed keep their core (`kept`), also those that are still being made;
* every new node is reached from `root` by links (`reached`) and is complete
  (`complete`): its links have nodes, and its bases and members are all written down.

`resolution_symbolNodeWith` proves it by induction on the bound of the recursion.
The invariant of the loop over the bases is `Underway`.
-/
import SymbolAtlas.Proofs.Session.Operations

set_option autoImplicit false

namespace SymbolAtlas

/-- The symbols that need a node when a symbol with this variant has one. -/
def Variant.links : Variant → List Symbol
  | .aliasOf (some target) => [target]
  | .method _ bases => bases
  | _ => []

/-- The keys of the bases that a node with this variant writes down. -/
def Variant.baseKeys (key : String) : Variant → List String
  | .method _ bases => (bases.map (·.key)).filter (· ≠ key)
  | _ => []

/-- The keys of the members that a node with this variant writes down. -/
def Variant.memberKeys : Variant → List String
  | .composite members => members.map (·.key)
  | _ => []

namespace Session

variable {μ ω : Type} {c : Context μ ω}

/-- The symbol with this key has a node. -/
def State.Has (s : State μ ω) (key : String) : Prop := ∃ n, s.symbols.get? key = some n

/-- The node of `key` is linked to `other`. -/
def State.Linked (s : State μ ω) (key other : String) : Prop :=
  ∃ n v, s.symbols.get? key = some n ∧ n.variant = some v ∧ ∃ sym ∈ v.links, sym.key = other

/-- The node of `key` has all that its variant asks for. -/
def State.Complete (s : State μ ω) (key : String) : Prop :=
  ∃ n v, s.symbols.get? key = some n ∧ n.variant = some v ∧ (∀ sym ∈ v.links, s.Has sym.key) ∧
    n.bases = v.baseKeys key ∧ n.members = v.memberKeys

/-! ## States that keep their nodes -/

/-- Nodes stay nodes and keep their core. -/
def State.Kept (s s' : State μ ω) : Prop :=
  ∀ key n, s.symbols.get? key = some n → ∃ n', s'.symbols.get? key = some n' ∧ n'.core = n.core

theorem kept_of_core {s s' : State μ ω} (same : s'.coreAt = s.coreAt) : s.Kept s' :=
  fun _ _ node => node_of_core same node

theorem State.Kept.trans {s s' s'' : State μ ω} (first : s.Kept s') (second : s'.Kept s'') :
    s.Kept s'' := by
  intro key n node
  obtain ⟨n', node', same⟩ := first key n node
  obtain ⟨n'', node'', same'⟩ := second key n' node'
  exact ⟨n'', node'', same'.trans same⟩

theorem State.Kept.has {s s' : State μ ω} (kept : s.Kept s') {key : String} (has : s.Has key) :
    s'.Has key := by
  obtain ⟨n, node⟩ := has
  obtain ⟨n', node', -⟩ := kept key n node
  exact ⟨n', node'⟩

theorem variant_of_core {n n' : SymbolNode} (same : n'.core = n.core) : n'.variant = n.variant :=
  (congrArg SymbolNode.variant same :)

theorem resultSet_of_core {n n' : SymbolNode} (same : n'.core = n.core) :
    n'.resultSet = n.resultSet :=
  (congrArg SymbolNode.resultSet same :)

theorem bases_of_core {n n' : SymbolNode} (same : n'.core = n.core) : n'.bases = n.bases :=
  (congrArg SymbolNode.bases same :)

theorem members_of_core {n n' : SymbolNode} (same : n'.core = n.core) : n'.members = n.members :=
  (congrArg SymbolNode.members same :)

theorem declarations_of_core {n n' : SymbolNode} (same : n'.core = n.core) :
    n'.declarations = n.declarations :=
  (congrArg SymbolNode.declarations same :)

theorem State.Kept.linked {s s' : State μ ω} (kept : s.Kept s') {key other : String}
    (linked : s.Linked key other) : s'.Linked key other := by
  obtain ⟨n, v, node, variant, sym⟩ := linked
  obtain ⟨n', node', same⟩ := kept key n node
  exact ⟨n', v, node', (variant_of_core same).trans variant, sym⟩

theorem State.Kept.complete {s s' : State μ ω} (kept : s.Kept s') {key : String}
    (complete : s.Complete key) : s'.Complete key := by
  obtain ⟨n, v, node, variant, links, bases, members⟩ := complete
  obtain ⟨n', node', same⟩ := kept key n node
  exact ⟨n', v, node', (variant_of_core same).trans variant, fun sym member =>
    kept.has (links sym member), (bases_of_core same).trans bases,
    (members_of_core same).trans members⟩

/-! ## A node is made -/

theorem get?_enrolled (s : State μ ω) (sym : Symbol) (v : Variant) (declarations : List NodeId)
    (name : SymbolName) (namer : Namer) (memory : μ) (key : String) :
    (s.enrolled c sym v declarations name namer memory).symbols.get? key =
      if sym.key = key then some (nodeOfSymbol sym v declarations name (s.lastId + 1))
      else s.symbols.get? key :=
  Table.get?_insert ..

/-- The last part of `establish`: each declaration gets its site and, in a file that the
run does not visit, its definition. -/
theorem details_forIn_declarations {key : String} {declarations : List NodeId}
    {s s' : State μ ω} {u : PUnit} {n : SymbolNode} (node : s.symbols.get? key = some n)
    (chosen : declarations ⊆ n.declarations)
    (h : Yields (forIn declarations PUnit.unit fun id _ => do
      let declaration ← nodeOf c id
      let mark ← markOf c declaration
      modifySymbol key fun n => { n with sites := n.sites.insert (Site.ofNode mark) id }
      recordEarly c key declaration
      pure (ForInStep.yield PUnit.unit)) s u s') :
    Details c s s' ∧ s'.memory = s.memory ∧ ∀ id ∈ declarations, s'.Notes c s.memory key id := by
  induction declarations generalizing s n with
  | nil =>
      obtain ⟨-, rfl⟩ := yields_pure.1 h
      exact ⟨.refl, rfl, by simp⟩
  | cons id declarations ih =>
      obtain ⟨_, t, first, rest⟩ := yields_bind.1 (by rwa [List.forIn_cons] at h)
      simp only [yields_nodeOf_bind, yields_markOf_bind, yields_modifySymbol_bind] at first
      obtain ⟨_, _, recorded, first⟩ := yields_bind.1 first
      obtain ⟨rfl, rfl⟩ := yields_pure.1 first
      have own : id ∈ n.declarations := chosen (List.mem_cons_self ..)
      have sited : Detail c s _ := .sited node own
      obtain ⟨n₁, node₁, same₁⟩ := node_of_core sited.core node
      obtain ⟨details, memory, notes⟩ :=
        yields_recordEarly node₁ (by rwa [declarations_of_core same₁]) recorded
      have early : Details c s t := .head sited details
      have memory : t.memory = s.memory := memory
      obtain ⟨n₂, node₂, same₂⟩ := node_of_core early.core node
      obtain ⟨more, memory', noted⟩ := ih node₂ (fun other member => by
        rw [declarations_of_core same₂]
        exact chosen (List.mem_cons_of_mem _ member)) rest
      refine ⟨early.trans more, memory'.trans memory, fun other member => ?_⟩
      rcases List.mem_cons.1 member with rfl | later
      · refine Details.notes more (notes ?_)
        simp only [Table.get?_modify_self, node, Option.map_some, Option.some.injEq] at node₁
        rw [← node₁]
        exact Table.contains_iff.2 ⟨_, Table.get?_insert_self ..⟩
      · exact memory ▸ noted other later

theorem yields_nameSymbol {key : String} {declarations : List NodeId} {s s' : State μ ω}
    {name : SymbolName} :
    Yields (nameSymbol c key declarations) s name s' ↔
      ∃ namer memory,
        (.ok (name, namer), memory) = s.namer.nameFirst? c.oracle declarations s.memory ∧
          s' = { s with namer, memory } := by
  rw [nameSymbol, yields_get_bind]
  rcases s.namer.nameFirst? c.oracle declarations s.memory with ⟨e | ⟨called, namer⟩, memory⟩
  · simp
  · simp only [yields_bind, yields_set, yields_pure, Prod.mk.injEq, Except.ok.injEq]
    constructor
    · rintro ⟨_, _, rfl, rfl, rfl⟩
      exact ⟨_, _, ⟨⟨rfl, rfl⟩, rfl⟩, rfl⟩
    · rintro ⟨_, _, ⟨⟨rfl, rfl⟩, rfl⟩, rfl⟩
      exact ⟨⟨⟩, _, rfl, rfl, rfl⟩

/-- A reserved symbol gets its node. -/
theorem yields_enroll {sym : Symbol} {use : Option NodeId} {s s' : State μ ω}
    {v : Variant} {declarations : List NodeId}
    (h : Yields (enroll c sym use)
      { s with symbols := s.symbols.insert sym.key { symbol := sym } } (v, declarations) s') :
    ∃ name namer m₁ m₂ m₃, (v, m₁) = Variant.classify c.oracle sym use s.memory ∧
      (declarations, m₂) = v.declarationsOf c.oracle sym use m₁ ∧
      (.ok (name, namer), m₃) = s.namer.nameFirst? c.oracle declarations m₂ ∧
      s' = s.enrolled c sym v declarations name namer m₃ := by
  simp only [enroll, yields_ask_bind, yields_modifySymbol_bind] at h
  obtain ⟨name, t, named, h⟩ := yields_bind.1 h
  obtain ⟨namer, m₃, called, rfl⟩ := yields_nameSymbol.1 named
  simp only [yields_emit_bind, yields_modifySymbol_bind, yields_count_bind, yields_pure,
    Prod.mk.injEq, State.emitted, Table.modify_insert] at h
  obtain ⟨⟨rfl, rfl⟩, rfl⟩ := h
  exact ⟨name, namer, _, _, m₃, rfl, rfl, called, rfl⟩

/-- A reserved symbol gets its node, and then only details follow, until its declarations are
on record. -/
theorem yields_establish {sym : Symbol} {use : Option NodeId} {s s' : State μ ω} {v : Variant}
    (h : Yields (establish c sym use)
      { s with symbols := s.symbols.insert sym.key { symbol := sym } } v s') :
    ∃ declarations name namer m₁ m₂ m₃,
      (v, m₁) = Variant.classify c.oracle sym use s.memory ∧
      (declarations, m₂) = v.declarationsOf c.oracle sym use m₁ ∧
      (.ok (name, namer), m₃) = s.namer.nameFirst? c.oracle declarations m₂ ∧
      Details c (s.enrolled c sym v declarations name namer m₃) s' ∧
      ∀ id ∈ declarations, s'.Notes c s'.memory sym.key id := by
  obtain ⟨⟨v', declarations⟩, t, enrolled, h⟩ := yields_bind.1 h
  obtain ⟨name, namer, m₁, m₂, m₃, classified, declared, called, shape⟩ := yields_enroll enrolled
  obtain ⟨_, t₁, primary, h⟩ := yields_bind.1 h
  obtain ⟨_, t₂, hover, h⟩ := yields_bind.1 h
  obtain ⟨_, t₃, sites, h⟩ := yields_bind.1 h
  obtain ⟨rfl, rfl⟩ := yields_pure.1 h
  have node : t.symbols.get? sym.key =
      some (nodeOfSymbol sym v declarations name (s.lastId + 1)) := by
    rw [shape, get?_enrolled, if_pos rfl]
  have details₁ := details_attachPrimary node primary
  obtain ⟨n₁, node₁⟩ := (kept_of_core details₁.core).has ⟨_, node⟩
  have details₂ : Details c t t₂ := details₁.trans (details_attachHover node₁ hover)
  obtain ⟨n₂, node₂, same₂⟩ := node_of_core details₂.core node
  have chosen : declarations ⊆ n₂.declarations := by
    rw [declarations_of_core same₂]
    exact List.Subset.refl _
  obtain ⟨details₃, memory, notes⟩ := details_forIn_declarations node₂ chosen sites
  exact ⟨declarations, name, namer, m₁, m₂, m₃, classified, declared, called,
    shape ▸ details₂.trans details₃, memory ▸ notes⟩

/-! ## Linked nodes are made -/

/-- A detail, or a symbol gets its node or a link. -/
inductive Move (c : Context μ ω) : State μ ω → State μ ω → Prop where
  | detail {s s' : State μ ω} (h : Detail c s s') : Move c s s'
  | growth {s s' : State μ ω} (h : Growth c s s') : Move c s s'

/-- Moves one after the other. -/
abbrev Moves (c : Context μ ω) : State μ ω → State μ ω → Prop :=
  Relation.ReflTransGen (Move c)

theorem Details.moves {s s' : State μ ω} (h : Details c s s') : Moves c s s' :=
  Relation.ReflTransGen.mono (fun _ _ h => Move.detail h) _ _ h

theorem Move.step {s s' : State μ ω} (h : Move c s s') : Step c s s' := by
  cases h with
  | detail h => exact .detail h
  | growth h => exact .growth h

theorem Moves.steps {s s' : State μ ω} (h : Moves c s s') : Steps c s s' :=
  Relation.ReflTransGen.mono (fun _ _ h => h.step) _ _ h

/-- What a request for the node of `root` does. -/
structure Resolution (c : Context μ ω) (s s' : State μ ω) (root : String) : Prop where
  moves : Moves c s s'
  has : s'.Has root
  kept : s.Kept s'
  new : ∀ key, s'.Has key →
    s.Has key ∨ s'.Complete key ∧ Relation.ReflTransGen s'.Linked root key

/-- The node of `key`, which `s` does not have, is being made: its variant is known and
some of its bases and members are written down. -/
structure Underway (c : Context μ ω) (s t : State μ ω) (key : String) (v : Variant)
    (bases members : List String) : Prop where
  moves : Moves c s t
  absent : ¬ s.Has key
  node : ∃ n, t.symbols.get? key = some n ∧ n.variant = some v ∧ n.bases = bases ∧
    n.members = members
  kept : s.Kept t
  new : ∀ other, t.Has other → s.Has other ∨ other = key ∨
    t.Complete other ∧ Relation.ReflTransGen t.Linked key other

theorem Underway.linked {s t : State μ ω} {key : String} {v : Variant}
    {bases members : List String} (u : Underway c s t key v bases members) {sym : Symbol}
    (member : sym ∈ v.links) : t.Linked key sym.key := by
  obtain ⟨n, node, variant, -, -⟩ := u.node
  exact ⟨n, v, node, variant, sym, member, rfl⟩

theorem underway_enrolled {s : State μ ω} {sym : Symbol} {v : Variant}
    {declarations : List NodeId} {name : SymbolName} {namer : Namer} {memory : μ}
    (absent : s.symbols.get? sym.key = none)
    (growth : Growth c s (s.enrolled c sym v declarations name namer memory)) :
    Underway c s (s.enrolled c sym v declarations name namer memory) sym.key v [] [] := by
  refine ⟨.single (.growth growth), by simp [State.Has, absent],
    ⟨_, by rw [get?_enrolled, if_pos rfl], rfl, rfl, rfl⟩, fun key n node => ?_,
    fun key has => ?_⟩
  · have different : sym.key ≠ key := by
      rintro rfl
      simp [absent] at node
    exact ⟨n, by rw [get?_enrolled, if_neg different, node], rfl⟩
  · obtain ⟨n, node⟩ := has
    rw [get?_enrolled] at node
    split at node
    · rename_i own
      exact .inr (.inl own.symm)
    · exact .inl ⟨n, node⟩

/-- A detail on the way changes nothing of note. -/
theorem Underway.details {s t t' : State μ ω} {key : String} {v : Variant}
    {bases members : List String} (u : Underway c s t key v bases members)
    (d : Details c t t') : Underway c s t' key v bases members := by
  have kept := kept_of_core d.core
  obtain ⟨n, node, variant, hb, hm⟩ := u.node
  obtain ⟨n', node', same⟩ := kept key n node
  refine ⟨u.moves.trans d.moves, u.absent, ⟨n', node', (variant_of_core same).trans variant,
    (bases_of_core same).trans hb, (members_of_core same).trans hm⟩, u.kept.trans kept,
    fun other has => ?_⟩
  have before : t.Has other := (kept_of_core d.core.symm).has has
  rcases u.new other before with old | own | ⟨complete, reached⟩
  · exact .inl old
  · exact .inr (.inl own)
  · exact .inr (.inr ⟨kept.complete complete,
      Relation.ReflTransGen.mono (fun _ _ h => kept.linked h) _ _ reached⟩)

/-- A linked symbol gets its node on the way. -/
theorem Underway.resolved {s t t' : State μ ω} {key : String} {v : Variant}
    {bases members : List String} (u : Underway c s t key v bases members) {sym : Symbol}
    (member : sym ∈ v.links) (r : Resolution c t t' sym.key) :
    Underway c s t' key v bases members := by
  obtain ⟨n, node, variant, hb, hm⟩ := u.node
  obtain ⟨n', node', same⟩ := r.kept key n node
  refine ⟨u.moves.trans r.moves, u.absent, ⟨n', node', (variant_of_core same).trans variant,
    (bases_of_core same).trans hb, (members_of_core same).trans hm⟩, u.kept.trans r.kept,
    fun other has => ?_⟩
  rcases r.new other has with before | ⟨complete, reached⟩
  · rcases u.new other before with old | own | ⟨complete, reached⟩
    · exact .inl old
    · exact .inr (.inl own)
    · exact .inr (.inr ⟨r.kept.complete complete,
        Relation.ReflTransGen.mono (fun _ _ h => r.kept.linked h) _ _ reached⟩)
  · exact .inr (.inr ⟨complete, .head (r.kept.linked (u.linked member)) reached⟩)

/-- Writing a base or the members into the node of `key` keeps all other nodes. -/
theorem Underway.written {s t : State μ ω} {key : String} {v : Variant}
    {bases members bases' members' : List String} (u : Underway c s t key v bases members)
    {f : SymbolNode → SymbolNode}
    (growth : Growth c t { t with symbols := t.symbols.modify key f })
    (variant : ∀ n, (f n).variant = n.variant)
    (basesAfter : ∀ n, n.bases = bases → (f n).bases = bases')
    (membersAfter : ∀ n, n.members = members → (f n).members = members') :
    Underway c s { t with symbols := t.symbols.modify key f } key v bases' members' := by
  obtain ⟨n, node, hv, hb, hm⟩ := u.node
  have others : ∀ other, other ≠ key →
      (t.symbols.modify key f).get? other = t.symbols.get? other := by
    intro other different
    rw [Table.get?_modify, if_neg (Ne.symm different)]
  have hasIff : ∀ other, State.Has { t with symbols := t.symbols.modify key f } other ↔
      t.Has other := by
    intro other
    unfold State.Has
    rw [Table.get?_modify]
    split
    · cases t.symbols.get? other <;> simp
    · rfl
  have linked : ∀ a b, t.Linked a b →
      State.Linked { t with symbols := t.symbols.modify key f } a b := by
    rintro a b ⟨m, w, here, hw, sym⟩
    by_cases own : a = key
    · subst own
      exact ⟨f m, w, by simp [here], (variant m).trans hw, sym⟩
    · exact ⟨m, w, (others a own).trans here, hw, sym⟩
  refine ⟨u.moves.tail (.growth growth), u.absent,
    ⟨f n, by simp [node], (variant n).trans hv, basesAfter n hb, membersAfter n hm⟩, ?_, ?_⟩
  · intro other m old
    obtain ⟨m', node', same⟩ := u.kept other m old
    have different : other ≠ key := by
      rintro rfl
      exact u.absent ⟨m, old⟩
    exact ⟨m', (others other different).trans node', same⟩
  · intro other has
    by_cases own : other = key
    · exact .inr (.inl own)
    rcases u.new other ((hasIff other).1 has) with old | same | ⟨complete, reached⟩
    · exact .inl old
    · exact absurd same own
    · refine .inr (.inr ⟨?_, Relation.ReflTransGen.mono linked _ _ reached⟩)
      obtain ⟨m, w, node, hw, links, hb, hm⟩ := complete
      exact ⟨m, w, (others other own).trans node, hw,
        fun sym member => (hasIff sym.key).2 (links sym member), hb, hm⟩

/-- When all links of the node have nodes, and its bases and members are written down, the
request is done. -/
theorem Underway.resolution {s t : State μ ω} {key : String} {v : Variant}
    (u : Underway c s t key v (v.baseKeys key) v.memberKeys)
    (links : ∀ sym ∈ v.links, t.Has sym.key) : Resolution c s t key := by
  obtain ⟨n, node, variant, hb, hm⟩ := u.node
  have complete : t.Complete key := ⟨n, v, node, variant, links, hb, hm⟩
  refine ⟨u.moves, ⟨n, node⟩, u.kept, fun other has => ?_⟩
  rcases u.new other has with old | rfl | reached
  · exact .inl old
  · exact .inr ⟨complete, .refl⟩
  · exact .inr reached

/-- `resolve` gives symbols their nodes. -/
def Resolves (c : Context μ ω) (resolve : Symbol → Indexing μ ω String) : Prop :=
  ∀ sym s key s', Yields (resolve sym) s key s' → key = sym.key ∧ Resolution c s s' sym.key

/-- The loop over the bases of a member. -/
theorem underway_forIn_bases {resolve : Symbol → Indexing μ ω String} (spec : Resolves c resolve)
    {s t t' : State μ ω} {key : String} {container : Symbol} {bases : List Symbol} {u : PUnit}
    (todo done : List Symbol) (all : bases = done ++ todo)
    (before : Underway c s t key (.method container bases)
      ((done.map (·.key)).filter (· ≠ key)) [])
    (links : ∀ sym ∈ done, t.Has sym.key)
    (h : Yields (forIn todo PUnit.unit fun base _ => do
      let baseKey ← resolve base
      if baseKey = key then pure (ForInStep.yield PUnit.unit)
      else do
        modifySymbol key fun n => { n with bases := n.bases ++ [baseKey] }
        pure (ForInStep.yield PUnit.unit)) t u t') :
    Underway c s t' key (.method container bases) ((bases.map (·.key)).filter (· ≠ key)) [] ∧
      ∀ sym ∈ bases, t'.Has sym.key := by
  induction todo generalizing t done with
  | nil =>
      simp only [List.forIn_nil, yields_pure] at h
      obtain ⟨-, rfl⟩ := h
      obtain rfl : bases = done := by simpa using all
      exact ⟨before, links⟩
  | cons base todo ih =>
      rw [List.forIn_cons] at h
      obtain ⟨step, t₁, first, h⟩ := yields_bind.1 h
      obtain ⟨baseKey, t₂, asked, first⟩ := yields_bind.1 first
      obtain ⟨rfl, r⟩ := spec _ _ _ _ asked
      have member : base ∈ (Variant.method container bases).links := by simp [Variant.links, all]
      have resolved := before.resolved member r
      have links₂ : ∀ sym ∈ done ++ [base], t₂.Has sym.key := by
        intro sym here
        rcases List.mem_append.1 here with old | new
        · exact r.kept.has (links sym old)
        · exact List.mem_singleton.1 new ▸ r.has
      have all' : bases = (done ++ [base]) ++ todo := by simp [all]
      by_cases own : base.key = key
      · rw [if_pos own, yields_pure] at first
        obtain ⟨rfl, rfl⟩ := first
        exact ih (done ++ [base]) all' (by simpa [own] using resolved) links₂ h
      · rw [if_neg own, yields_modifySymbol_bind, yields_pure] at first
        obtain ⟨rfl, rfl⟩ := first
        obtain ⟨n, node, variant, -, -⟩ := resolved.node
        obtain ⟨m, baseNode⟩ := r.has
        have growth : Growth c t₂ { t₂ with symbols := t₂.symbols.modify key fun n =>
            { n with bases := n.bases ++ [base.key] } } :=
          .based node variant member own baseNode
        have written := resolved.written growth (fun _ => rfl)
          (fun n same => congrArg (· ++ [base.key]) same) (fun n same => same)
        refine ih (done ++ [base]) all' (by simpa [own] using written) (fun sym here => ?_) h
        obtain ⟨k, found⟩ := links₂ sym here
        by_cases same : key = sym.key <;> simp [State.Has, Table.get?_modify, same, found]

/-- Linking a node whose symbol has just been established. -/
theorem resolution_link {resolve : Symbol → Indexing μ ω String} (spec : Resolves c resolve)
    {s t t' : State μ ω} {key : String} {v : Variant} {u : Unit}
    (before : Underway c s t key v [] []) (h : Yields (link c resolve key v) t u t') :
    Resolution c s t' key := by
  cases v with
  | standard =>
      obtain ⟨-, rfl⟩ := yields_pure.1 h
      exact before.resolution (by simp [Variant.links])
  | transient =>
      obtain ⟨-, rfl⟩ := yields_pure.1 h
      exact before.resolution (by simp [Variant.links])
  | aliasOf target =>
      cases target with
      | none =>
          obtain ⟨-, rfl⟩ := yields_pure.1 h
          exact before.resolution (by simp [Variant.links])
      | some target =>
          obtain ⟨targetKey, t₁, asked, h⟩ := yields_bind.1 h
          obtain ⟨rfl, r⟩ := spec _ _ _ _ asked
          have resolved := before.resolved (List.mem_singleton.2 rfl) r
          obtain ⟨n, node, variant, -, -⟩ := resolved.node
          obtain ⟨m, targetNode⟩ := r.has
          simp only [yields_lookup_bind, yields_emit_bind, yields_pure, node, targetNode,
            Option.getD_some] at h
          obtain ⟨-, rfl⟩ := h
          have joined : Details c t₁ _ := .single (.joined node variant targetNode)
          refine (resolved.details joined).resolution fun sym member => ?_
          obtain rfl := List.mem_singleton.1 member
          exact (kept_of_core joined.core).has r.has
  | method container bases =>
      obtain ⟨_, _, loop, h⟩ := yields_bind.1 h
      obtain ⟨-, rfl⟩ := yields_pure.1 h
      obtain ⟨done, links⟩ := underway_forIn_bases spec bases [] rfl before (by simp) loop
      exact done.resolution links
  | composite members =>
      obtain rfl := yields_modifySymbol.1 h
      obtain ⟨n, node, variant, -, unset⟩ := before.node
      have growth : Growth c t { t with symbols := t.symbols.modify key fun n =>
          { n with members := members.map (·.key) } } := .composed node variant unset
      have written := before.written growth (fun _ => rfl) (fun n same => same) (fun n _ => rfl)
      exact written.resolution (by simp [Variant.links])

/-- After the node is made, a local symbol may still be tied to its document. -/
theorem Resolution.details {s t t' : State μ ω} {root : String} (r : Resolution c s t root)
    (d : Details c t t') : Resolution c s t' root := by
  have kept := kept_of_core d.core
  refine ⟨r.moves.trans d.moves, kept.has r.has, r.kept.trans kept, fun key has => ?_⟩
  rcases r.new key ((kept_of_core d.core.symm).has has) with old | ⟨complete, reached⟩
  · exact .inl old
  · exact .inr ⟨kept.complete complete,
      Relation.ReflTransGen.mono (fun _ _ h => kept.linked h) _ _ reached⟩

/-- **What a request for a node brings about.** -/
theorem resolves_symbolNodeWith (use : Option NodeId) (fuel : Nat) :
    Resolves c (symbolNodeWith c use fuel) := by
  induction fuel with
  | zero =>
      intro sym s key s' h
      exact absurd h yields_throw
  | succ fuel ih =>
      intro sym s key s' h
      rw [symbolNodeWith, yields_get_bind] at h
      cases present : s.symbols.contains sym.key
      · simp only [present, Bool.false_eq_true, if_false, yields_modify_bind] at h
        have absent : s.symbols.get? sym.key = none := by
          simpa [Table.contains] using present
        obtain ⟨v, t, established, h⟩ := yields_bind.1 h
        obtain ⟨declarations, name, namer, m₁, m₂, m₃, classified, declared, called, details, -⟩ :=
          yields_establish established
        obtain ⟨_, t₁, linked, h⟩ := yields_bind.1 h
        have started := underway_enrolled absent (.enrolled absent classified declared called)
        have r := resolution_link ih (started.details details) linked
        rw [yields_lookup_bind] at h
        obtain ⟨n, node⟩ := r.has
        cases local_ : n.isLocal
        · simp only [node, Option.getD_some, local_, Bool.false_eq_true, if_false,
            yields_pure] at h
          exact ⟨h.1, h.2 ▸ r⟩
        · simp only [node, Option.getD_some, local_, if_true] at h
          obtain ⟨_, t₂, confined, h⟩ := yields_bind.1 h
          obtain ⟨rfl, rfl⟩ := yields_pure.1 h
          exact ⟨rfl, r.details (details_confine node local_ confined)⟩
      · simp only [present, if_true, yields_pure] at h
        obtain ⟨rfl, rfl⟩ := h
        exact ⟨rfl, .refl, Table.contains_iff.1 present, fun _ n node => ⟨n, node, rfl⟩,
          fun _ has => .inl has⟩

end Session
end SymbolAtlas
