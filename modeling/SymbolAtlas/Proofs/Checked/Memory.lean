/-
# SymbolAtlas.Proofs.Checked.Memory -- what a checked program always remembers

The nodes of a memory hang together: parents and names of nodes are nodes, a name stands in the
file of what it names, and only names have symbols that the checker did not record.  What the
tables say is true of the nodes: a declaration is found where the start of its name is reported,
and a stub where its entity is declared.  And what a symbol stands for shows in its key
(`Base.Means`).  Such a memory is sound (`Memory.Sound`).

A memory grows: nodes are added, and none that is there ever changes its place in the tree
(`Memory.Grows`).
-/
import Mathlib.Tactic.ByContra
import SymbolAtlas.Checked.Program

set_option autoImplicit false

namespace SymbolAtlas.Checked

open Text (Position)

variable {b : Base} {m m' m'' : Memory} {id : NodeId}

/-! ## Nodes -/

/-- A node is there. -/
def Memory.Has (m : Memory) (id : NodeId) : Prop := id.index < m.nodes.size

/-- A node names what it hangs in. -/
def Memory.Names (m : Memory) (id : NodeId) : Prop :=
  ∃ p, (m.node id).node.parent = some p ∧ (m.node p).node.nameNode = some id

/-- The name of a declaration starts at a position of a file. -/
def Memory.Marks (m : Memory) (id : NodeId) (file : String) (start : Position) : Prop :=
  ∃ name, m.Has name ∧ (m.node id).node.nameNode = some name ∧
    (m.node name).node.file = file ∧ (m.node name).node.span.start = start

/-- Where an entity is declared; one without a place is declared nowhere. -/
def Base.declaredAt? (b : Base) (e : Entity) : Option Place :=
  if e.isUniverse then b.predeclaredPlace? (b.facts.universeName e) else some (b.placeOf e)

/-- The file in which what stands at an offset of a file is looked for. -/
def Base.reportedFile (b : Base) (path : String) (offset : Nat) : String :=
  (b.resolve (b.placeAt path offset)).file

/-- A position of a file is that of a place: at its offset if it is reported in the file of the
place, and else at its line and column in that file. -/
inductive Base.Locates (b : Base) (place : Place) : String → Position → Prop where
  | reported {path : String} (file : b.reportedFile path place.offset = place.file) :
      Locates b place path ((b.source path).offsetPosition place.offset)
  | own : Locates b place place.file ((b.source place.file).columnPosition place.line place.column)

/-- A node declares an entity with this key, and is marked where the entity is declared. -/
def Memory.Declares (b : Base) (m : Memory) (key : String) (id : NodeId) : Prop :=
  ∃ e clause place path start, key = b.entityKey (b.facts.entity e) clause ∧
    b.declaredAt? (b.facts.entity e) = some place ∧ b.Locates place path start ∧
    m.Marks id path start

/-- What a symbol stands for shows in its key, and for an entity in its flags. -/
def Base.Means (b : Base) (s : Symbol) : Meaning → Prop
  | .entity id => (∃ used, id = b.facts.origin used) ∧ ∃ clause,
      s.key = b.entityKey (b.facts.entity id) clause ∧
      s.flags = (b.facts.entity id).flags clause.isSome
  | .package id => s.key = packageKey (b.facts.package id).path
  | .guard _ _ => ∃ package name place, s.key = guardKey package name place

/-- A symbol stands for something. -/
def Base.Meant (b : Base) (s : Symbol) : Prop := ∃ meaning, b.Means s meaning

/-- A node may have a symbol besides what the checker recorded: it is a name, and if the symbol is
that of an entity, the checker recorded no declaration there. -/
structure Memory.Presets (b : Base) (m : Memory) (id : NodeId) (s : Symbol) : Prop where
  names : m.Names id
  meant : b.Meant s
  bare : ∀ e clause, s.key = b.entityKey e clause →
    (m.node id).identifier.bind Identifier.definition = none

/-- A node hangs together with the others. -/
structure Memory.Fits (b : Base) (m : Memory) (id : NodeId) : Prop where
  parent : ∀ p, (m.node id).node.parent = some p → m.Has p
  name : ∀ x, (m.node id).node.nameNode = some x →
    m.Has x ∧ (m.node x).node.file = (m.node id).node.file
  preset : ∀ s, (m.node id).symbol = some s → m.Presets b id s

theorem Memory.node_of_not_has (absent : ¬ m.Has id) : m.node id = { node := { id } } := by
  unfold Memory.node
  rw [Array.getElem?_eq_none (Nat.not_lt.1 absent), Option.getD_none]

/-- A node of which something is known is there. -/
theorem Memory.has_of_known (m : Memory) {id : NodeId} {α : Type}
    (known : CheckedNode → Option α) {x : α} (bare : ∀ id, known { node := { id } } = none)
    (own : known (m.node id) = some x) : m.Has id := by
  by_contra absent
  rw [m.node_of_not_has absent, bare] at own
  cases own

theorem Memory.has_of_parent {p : NodeId} (up : (m.node id).node.parent = some p) : m.Has id :=
  m.has_of_known (·.node.parent) (fun _ => rfl) up

theorem Memory.has_of_nameNode {x : NodeId} (named : (m.node id).node.nameNode = some x) :
    m.Has id :=
  m.has_of_known (·.node.nameNode) (fun _ => rfl) named

theorem Memory.has_of_identifier {i : Identifier} (own : (m.node id).identifier = some i) :
    m.Has id :=
  m.has_of_known (·.identifier) (fun _ => rfl) own

theorem Memory.has_of_symbol {s : Symbol} (own : (m.node id).symbol = some s) : m.Has id :=
  m.has_of_known (·.symbol) (fun _ => rfl) own

theorem Memory.Marks.has {file : String} {start : Position} (h : m.Marks id file start) :
    m.Has id := by
  obtain ⟨name, -, named, -⟩ := h
  exact m.has_of_nameNode named

/-! ## Growth -/

/-- No node changes what it is and where it stands. -/
structure Memory.Grows (m m' : Memory) : Prop where
  has : ∀ {id}, m.Has id → m'.Has id
  node : ∀ {id}, m.Has id → (m'.node id).node = (m.node id).node
  identifier : ∀ {id}, m.Has id → (m'.node id).identifier = (m.node id).identifier

namespace Memory.Grows

theorem refl (m : Memory) : m.Grows m := ⟨id, fun _ => rfl, fun _ => rfl⟩

theorem trans (first : m.Grows m') (second : m'.Grows m'') : m.Grows m'' where
  has here := second.has (first.has here)
  node here := (second.node (first.has here)).trans (first.node here)
  identifier here := (second.identifier (first.has here)).trans (first.identifier here)

theorem of_nodes (same : m'.nodes = m.nodes) : m.Grows m' := by
  have node (id : NodeId) : m'.node id = m.node id := by rw [Memory.node, same, Memory.node]
  exact ⟨fun here => by rwa [Memory.Has, same], fun _ => by rw [node], fun _ => by rw [node]⟩

variable (grows : m.Grows m')

include grows

theorem marks {file : String} {start : Position} (h : m.Marks id file start) :
    m'.Marks id file start := by
  obtain ⟨name, has, named, own, here⟩ := h
  refine ⟨name, grows.has has, ?_, ?_, ?_⟩
  · rw [grows.node (m.has_of_nameNode named), named]
  · rw [grows.node has, own]
  · rw [grows.node has, here]

theorem declares {key : String} (h : m.Declares b key id) : m'.Declares b key id := by
  obtain ⟨e, clause, place, path, start, own, declared, located, marks⟩ := h
  exact ⟨e, clause, place, path, start, own, declared, located, grows.marks marks⟩

theorem names (h : m.Names id) : m'.Names id := by
  obtain ⟨p, up, named⟩ := h
  refine ⟨p, ?_, ?_⟩
  · rw [grows.node (m.has_of_parent up), up]
  · rw [grows.node (m.has_of_nameNode named), named]

/-- What does not name its parent never will. -/
theorem of_names (has : m.Has id) (fits : m.Fits b id) (h : m'.Names id) : m.Names id := by
  obtain ⟨p, up, named⟩ := h
  rw [grows.node has] at up
  rw [grows.node (fits.parent p up)] at named
  exact ⟨p, up, named⟩

/-- A node that gets no symbol goes on hanging together with the others, and a name may get one. -/
theorem fits (has : m.Has id) (fits : m.Fits b id)
    (preset : ∀ s, (m'.node id).symbol = some s →
      (m.node id).symbol = some s ∨ m.Presets b id s) : m'.Fits b id where
  parent p up := grows.has (fits.parent p (grows.node has ▸ up))
  name x named := by
    obtain ⟨there, file⟩ := fits.name x (grows.node has ▸ named)
    exact ⟨grows.has there, by rw [grows.node there, grows.node has, file]⟩
  preset s own := by
    obtain ⟨names, meant, bare⟩ := (preset s own).elim (fits.preset s) fun given => given
    exact ⟨grows.names names, meant, grows.identifier has ▸ bare⟩

end Memory.Grows

/-! ## Sound memories -/

/-- The memory of a checked program hangs together. -/
structure Memory.Sound (b : Base) (m : Memory) : Prop where
  nodes : ∀ id, m.Has id → m.Fits b id
  symbols : ∀ key known, m.symbols.get? key = some known →
    known.symbol.key = key ∧ b.Means known.symbol known.meaning ∧
      ∀ d members, known.meaning = .guard d members → m.Has d
  /-- A declaration is found where the start of its name is reported. -/
  declarations : ∀ file offset id, m.declarations.get? (file, offset) = some id →
    ∃ path, b.reportedFile path offset = file ∧
      m.Marks id path ((b.source path).offsetPosition offset)
  /-- A stub declares a package, or the entity with its key. -/
  stubs : ∀ key id, m.stubs.get? key = some id →
    m.Has id ∧ ((∃ path, key = packageKey path) ∨ m.Declares b key id)
  clauses : ∀ path ids, m.clauses.get? path = some ids → ∀ id ∈ ids, m.Has id
  externals : ∀ path f, m.externals.get? path = some f → m.Has f.node ∧ f.source = b.source path

theorem Memory.sound_empty (b : Base) : ({} : Memory).Sound b where
  nodes _ has := absurd has (Nat.not_lt_zero _)
  symbols _ _ here := by cases here
  declarations _ _ _ here := by cases here
  stubs _ _ here := by cases here
  clauses _ _ here := by cases here
  externals _ _ here := by cases here

/-- Nodes hang together whatever the tables say. -/
theorem Memory.Sound.fits_of_nodes (h : m.Sound b) (same : m'.nodes = m.nodes) (id : NodeId)
    (has : m'.Has id) : m'.Fits b id := by
  have old : m.Has id := by rwa [Memory.Has, ← same]
  refine (Memory.Grows.of_nodes same).fits old (h.nodes id old) fun s own => .inl ?_
  rwa [Memory.node, same] at own

/-- What the tables say stays true when nodes are added or given symbols. -/
theorem Memory.Sound.with_nodes {nodes : Array CheckedNode} (h : m.Sound b)
    (grows : m.Grows { m with nodes })
    (fits : ∀ id, Memory.Has { m with nodes } id → Memory.Fits b { m with nodes } id) :
    Memory.Sound b { m with nodes } where
  nodes := fits
  symbols key known here := by
    obtain ⟨own, means, guards⟩ := h.symbols key known here
    exact ⟨own, means, fun d members guard => grows.has (guards d members guard)⟩
  declarations file offset id here := by
    obtain ⟨path, reported, marks⟩ := h.declarations file offset id here
    exact ⟨path, reported, grows.marks marks⟩
  stubs key id here := by
    obtain ⟨has, stub⟩ := h.stubs key id here
    exact ⟨grows.has has, stub.imp_right grows.declares⟩
  clauses path ids here id member := grows.has (h.clauses path ids here id member)
  externals path f here := by
    obtain ⟨has, source⟩ := h.externals path f here
    exact ⟨grows.has has, source⟩

/-! ### New nodes -/

theorem Memory.node_push (m : Memory) (n : CheckedNode) (id : NodeId) :
    Memory.node { m with nodes := m.nodes.push n } id =
      if id.index = m.nodes.size then n else m.node id := by
  unfold Memory.node
  rw [Array.getElem?_push]
  split <;> rfl

theorem Memory.grows_push (m : Memory) (n : CheckedNode) :
    m.Grows { m with nodes := m.nodes.push n } := by
  have node {id : NodeId} (has : m.Has id) :
      Memory.node { m with nodes := m.nodes.push n } id = m.node id := by
    rw [m.node_push, if_neg (Nat.ne_of_lt has)]
  refine ⟨fun has => ?_, fun has => by rw [node has], fun has => by rw [node has]⟩
  rw [Memory.Has, Array.size_push]
  exact Nat.lt_succ_of_lt has

/-- Where the next node is added. -/
def Memory.next (m : Memory) : NodeId := ⟨m.nodes.size⟩

theorem Memory.not_has_next (m : Memory) : ¬ m.Has m.next := Nat.lt_irrefl _

theorem Memory.has_next_push (m : Memory) (n : CheckedNode) :
    Memory.Has { m with nodes := m.nodes.push n } m.next := by
  rw [Memory.Has, Array.size_push]
  exact Nat.lt_succ_self _

theorem Memory.node_next_push (m : Memory) (n : CheckedNode) :
    Memory.node { m with nodes := m.nodes.push n } m.next = n :=
  (m.node_push n m.next).trans (if_pos rfl)

/-- A node that names nothing may be added below a node. -/
theorem Memory.Sound.push (h : m.Sound b) {n : CheckedNode}
    (parent : ∀ p, n.node.parent = some p → m.Has p) (unnamed : n.node.nameNode = none)
    (bare : n.symbol = none) : Memory.Sound b { m with nodes := m.nodes.push n } := by
  have grows := m.grows_push n
  refine h.with_nodes grows fun id has => ?_
  by_cases old : m.Has id
  · refine grows.fits old (h.nodes id old) fun s own => .inl ?_
    rwa [m.node_push, if_neg (Nat.ne_of_lt old)] at own
  · have last : id.index = m.nodes.size := by
      rw [Memory.Has, Array.size_push] at has
      exact Nat.le_antisymm (Nat.lt_succ_iff.1 has) (Nat.not_lt.1 old)
    have own : Memory.node { m with nodes := m.nodes.push n } id = n := by
      rw [m.node_push, if_pos last]
    refine ⟨fun p up => ?_, fun x named => ?_, fun s preset => ?_⟩
    · rw [own] at up
      exact grows.has (parent p up)
    · rw [own, unnamed] at named
      cases named
    · rw [own, bare] at preset
      cases preset

/-! ### Changed nodes -/

section Modify

variable {f : CheckedNode → CheckedNode}

theorem Memory.node_modify (m : Memory) (id other : NodeId) (has : m.Has other) :
    Memory.node { m with nodes := m.nodes.modify id.index f } other =
      if id = other then f (m.node other) else m.node other := by
  obtain ⟨index⟩ := id
  obtain ⟨index'⟩ := other
  have has : index' < m.nodes.size := has
  unfold Memory.node
  simp only [Array.getElem?_modify, NodeId.mk.injEq, Array.getElem?_eq_getElem has]
  split <;> rfl

theorem Memory.grows_modify (m : Memory) (id : NodeId) (node : ∀ n, (f n).node = n.node)
    (identifier : ∀ n, (f n).identifier = n.identifier) :
    m.Grows { m with nodes := m.nodes.modify id.index f } where
  has has := by rwa [Memory.Has, Array.size_modify]
  node has := by
    rw [m.node_modify id _ has]
    split
    · exact node _
    · rfl
  identifier has := by
    rw [m.node_modify id _ has]
    split
    · exact identifier _
    · rfl

/-- Only names may be given symbols. -/
theorem Memory.Sound.modify (h : m.Sound b) (node : ∀ n, (f n).node = n.node)
    (identifier : ∀ n, (f n).identifier = n.identifier)
    (preset : ∀ s, (f (m.node id)).symbol = some s →
      (m.node id).symbol = some s ∨ m.Presets b id s) :
    Memory.Sound b { m with nodes := m.nodes.modify id.index f } := by
  have grows := m.grows_modify id node identifier
  refine h.with_nodes grows fun other has => ?_
  have old : m.Has other := by rwa [Memory.Has, Array.size_modify] at has
  refine grows.fits old (h.nodes other old) fun s own => ?_
  rw [m.node_modify id other old] at own
  split at own
  · rename_i same
    exact same ▸ preset s (same ▸ own)
  · exact .inl own

end Modify

/-! ### Declarations with their names -/

/-- The memory with a declaration and its name. -/
def Memory.pair (m : Memory) (declaration name : CheckedNode) : Memory :=
  { m with nodes := (m.nodes.push declaration).push name }

/-- Where the name of a new declaration is added. -/
def Memory.nextName (m : Memory) : NodeId := ⟨m.nodes.size + 1⟩

section Pair

variable {declaration name : CheckedNode}

theorem Memory.not_has_nextName (m : Memory) : ¬ m.Has m.nextName :=
  Nat.not_lt.2 (Nat.le_succ _)

theorem Memory.has_pair : (m.pair declaration name).Has id ↔
    m.Has id ∨ id = m.next ∨ id = m.nextName := by
  obtain ⟨index⟩ := id
  simp only [Memory.Has, Memory.pair, Array.size_push, Memory.next, Memory.nextName,
    NodeId.mk.injEq]
  omega

theorem Memory.node_pair (m : Memory) (declaration name : CheckedNode) (id : NodeId) :
    (m.pair declaration name).node id =
      if id = m.nextName then name else if id = m.next then declaration else m.node id := by
  obtain ⟨index⟩ := id
  unfold Memory.node Memory.pair Memory.nextName Memory.next
  rw [Array.getElem?_push, Array.getElem?_push, Array.size_push]
  simp only [NodeId.mk.injEq]
  split
  · rfl
  · split <;> rfl

@[simp] theorem Memory.node_pair_next (m : Memory) (declaration name : CheckedNode) :
    (m.pair declaration name).node m.next = declaration := by
  rw [Memory.node_pair, if_neg (by simp [Memory.next, Memory.nextName]), if_pos rfl]

@[simp] theorem Memory.node_pair_nextName (m : Memory) (declaration name : CheckedNode) :
    (m.pair declaration name).node m.nextName = name := by
  rw [Memory.node_pair, if_pos rfl]

theorem Memory.node_pair_of_has (has : m.Has id) :
    (m.pair declaration name).node id = m.node id := by
  rw [Memory.node_pair, if_neg, if_neg]
  · rintro rfl
    exact m.not_has_next has
  · rintro rfl
    exact m.not_has_nextName has

theorem Memory.grows_pair (m : Memory) (declaration name : CheckedNode) :
    m.Grows (m.pair declaration name) where
  has has := Memory.has_pair.2 (.inl has)
  node has := by rw [Memory.node_pair_of_has has]
  identifier has := by rw [Memory.node_pair_of_has has]

/-- A declaration may be added together with its name. -/
theorem Memory.Sound.pair (h : m.Sound b)
    (parent : ∀ p, declaration.node.parent = some p → m.Has p)
    (named : declaration.node.nameNode = some m.nextName)
    (hangs : name.node.parent = some m.next) (unnamed : name.node.nameNode = none)
    (file : name.node.file = declaration.node.file) (bare : declaration.symbol = none)
    (preset : ∀ s, name.symbol = some s → b.Meant s ∧ ∀ e clause,
      s.key = b.entityKey e clause → name.identifier.bind Identifier.definition = none) :
    (m.pair declaration name).Sound b := by
  have grows := m.grows_pair declaration name
  refine h.with_nodes grows fun id has => ?_
  rcases Memory.has_pair.1 has with old | rfl | rfl
  · exact grows.fits old (h.nodes id old) fun s own =>
      .inl (Memory.node_pair_of_has old ▸ own)
  · refine ⟨fun p up => ?_, fun x own => ?_, fun s preset => ?_⟩
    · exact grows.has (parent p (m.node_pair_next declaration name ▸ up))
    · have own : declaration.node.nameNode = some x := m.node_pair_next declaration name ▸ own
      obtain rfl := Option.some.inj (named.symm.trans own)
      refine ⟨Memory.has_pair.2 (.inr (.inr rfl)), ?_⟩
      show ((m.pair declaration name).node _).node.file = ((m.pair declaration name).node _).node.file
      rw [Memory.node_pair_nextName, Memory.node_pair_next, file]
    · have preset : declaration.symbol = some s := m.node_pair_next declaration name ▸ preset
      rw [bare] at preset
      cases preset
  · refine ⟨fun p up => ?_, fun x own => ?_, fun s own => ?_⟩
    · have up : name.node.parent = some p := m.node_pair_nextName declaration name ▸ up
      obtain rfl := Option.some.inj (hangs.symm.trans up)
      exact Memory.has_pair.2 (.inr (.inl rfl))
    · have own : name.node.nameNode = some x := m.node_pair_nextName declaration name ▸ own
      rw [unnamed] at own
      cases own
    · have own : name.symbol = some s := m.node_pair_nextName declaration name ▸ own
      obtain ⟨meant, bare⟩ := preset s own
      refine ⟨⟨m.next, ?_, ?_⟩, meant, (m.node_pair_nextName declaration name).symm ▸ bare⟩
      · exact (congrArg (·.node.parent) (m.node_pair_nextName declaration name)).trans hangs
      · exact (congrArg (·.node.nameNode) (m.node_pair_next declaration name)).trans named

end Pair

end SymbolAtlas.Checked
