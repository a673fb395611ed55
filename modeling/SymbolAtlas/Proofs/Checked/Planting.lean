/-
# SymbolAtlas.Proofs.Checked.Planting -- trees that hang below a node

A tree is planted below a node (`Planted`): its nodes are new ones, each child says what it hangs
in, each declaration is named by one of its children, and the identifiers that the nodes carry are
known, none lost and none twice.  Trees that are planted one after the other stand side by side
(`Planted.append`), and what is planted below a new node makes a tree with it (`Planted.node`).
Containers, declarations, imports, guards and functions are put together from these two.
-/
import Mathlib.Data.List.Nodup
import SymbolAtlas.Proofs.Checked.Outline

set_option autoImplicit false

namespace SymbolAtlas

/-! ## Trees -/

namespace Tree

/-- The trees of the children. -/
def children : Tree → List Tree
  | node _ children => children

/-- A tree is a part of a tree. -/
inductive Within : Tree → Tree → Prop where
  | self (t : Tree) : Within t t
  | inside {s t u : Tree} (child : t ∈ u.children) (within : Within s t) : Within s u

/-- The children of a node say what they hang in, and one of them names it if it is a
declaration. -/
structure Joined (t : Tree) : Prop where
  hangs : ∀ c ∈ t.children, c.root.parent = some t.root.id
  named : t.root.kind.isDeclaration = true →
    ∃ c ∈ t.children, t.root.nameNode = some c.root.id ∧ c.root.kind = .identifier

end Tree

namespace Checked

open Text

variable {b : Base} {f : LoadedFile} {m m' m'' m₁ : Memory} {parent : Option NodeId} {n : Node}
  {ts ts' : List Tree} {is is' : List Identifier} {claimed : List Nat}

/-! ## New nodes -/

/-- A new node is in a memory. -/
structure Put (m : Memory) (n : Node) (identifier : Option Identifier) (m' : Memory) : Prop where
  grows : m.Grows m'
  fresh : ¬ m.Has n.id
  has : m'.Has n.id
  own : (m'.node n.id).node = n
  carries : (m'.node n.id).identifier = identifier

theorem put_push (m : Memory) {n : CheckedNode} (own : n.node.id = m.next) :
    Put m n.node n.identifier { m with nodes := m.nodes.push n } where
  grows := m.grows_push n
  fresh := own ▸ m.not_has_next
  has := own ▸ m.has_next_push n
  own := by rw [own, m.node_next_push]
  carries := by rw [own, m.node_next_push]

/-- A declaration is put in first, and then its name. -/
theorem put_pair (m : Memory) (declaration name : CheckedNode) (own : declaration.node.id = m.next)
    (own' : name.node.id = m.nextName) :
    ∃ m₁, Put m declaration.node declaration.identifier m₁ ∧
      Put m₁ name.node name.identifier (m.pair declaration name) := by
  refine ⟨_, put_push m own, put_push _ (own'.trans ?_)⟩
  exact congrArg NodeId.mk (Array.size_push _).symm

/-! ## Planted trees -/

/-- Trees with new nodes hang below a parent, and carry identifiers of a file. -/
structure Planted (f : LoadedFile) (parent : Option NodeId) (m : Memory) (ts : List Tree)
    (is : List Identifier) (m' : Memory) : Prop where
  grows : m.Grows m'
  nodes : ∀ n ∈ Tree.nodesOf ts, ¬ m.Has n.id ∧ m'.Has n.id ∧ (m'.node n.id).node = n
  distinct : ((Tree.nodesOf ts).map (·.id)).Nodup
  carries : ((Tree.nodesOf ts).filterMap fun n => (m'.node n.id).identifier).Perm is
  stands : ∀ n ∈ Tree.nodesOf ts, ∀ i, (m'.node n.id).identifier = some i →
    n.kind = .identifier ∧ n.name = i.name ∧ n.span = f.span i.extent
  hangs : ∀ t ∈ ts, t.root.parent = parent
  joined : ∀ t ∈ ts, ∀ s, Tree.Within s t → s.Joined

namespace Planted

theorem nothing (grows : m.Grows m') : Planted f parent m [] [] m' where
  grows := grows
  nodes _ member := absurd member List.not_mem_nil
  distinct := List.nodup_nil
  carries := .refl _
  stands _ member := absurd member List.not_mem_nil
  hangs _ member := absurd member List.not_mem_nil
  joined _ member := absurd member List.not_mem_nil

theorem perm (h : Planted f parent m ts is m') (same : is.Perm is') :
    Planted f parent m ts is' m' := { h with carries := h.carries.trans same }

/-- **Trees that are planted one after the other stand side by side.** -/
theorem append (first : Planted f parent m ts is m') (second : Planted f parent m' ts' is' m'') :
    Planted f parent m (ts ++ ts') (is ++ is') m'' where
  grows := first.grows.trans second.grows
  nodes n member := by
    rw [nodesOf_append] at member
    rcases List.mem_append.1 member with old | new
    · obtain ⟨fresh, has, own⟩ := first.nodes n old
      exact ⟨fresh, second.grows.has has, (second.grows.node has).trans own⟩
    · obtain ⟨fresh, has, own⟩ := second.nodes n new
      exact ⟨fun before => fresh (first.grows.has before), has, own⟩
  distinct := by
    rw [nodesOf_append, List.map_append]
    refine List.nodup_append.2 ⟨first.distinct, second.distinct, fun id old id' new same => ?_⟩
    obtain ⟨n, member, rfl⟩ := List.mem_map.1 old
    obtain ⟨n', member', rfl⟩ := List.mem_map.1 new
    exact (second.nodes n' member').1 (same ▸ (first.nodes n member).2.1)
  carries := by
    rw [nodesOf_append, List.filterMap_append]
    have kept : (Tree.nodesOf ts).filterMap (fun n => (m''.node n.id).identifier) =
        (Tree.nodesOf ts).filterMap fun n => (m'.node n.id).identifier :=
      List.filterMap_congr fun n member => second.grows.identifier (first.nodes n member).2.1
    exact (kept ▸ first.carries).append second.carries
  stands n member i own := by
    rw [nodesOf_append] at member
    rcases List.mem_append.1 member with old | new
    · exact first.stands n old i ((second.grows.identifier (first.nodes n old).2.1).symm.trans own)
    · exact second.stands n new i own
  hangs t member := (List.mem_append.1 member).elim (first.hangs t) (second.hangs t)
  joined t member := (List.mem_append.1 member).elim (first.joined t) (second.joined t)

/-- What happened before does not matter if nothing that was there changed. -/
theorem after (grows : m.Grows m') (h : Planted f parent m' ts is m'') :
    Planted f parent m ts is m'' := (nothing grows).append h

/-- What happens later does not matter if nothing that is there changes. -/
theorem before (h : Planted f parent m ts is m') (grows : m'.Grows m'') :
    Planted f parent m ts is m'' := by
  simpa using h.append (nothing grows)

/-- **What is planted below a new node makes a tree with it.** -/
theorem node {identifier : Option Identifier} (put : Put m n identifier m₁)
    (stands : ∀ i ∈ identifier, n.kind = .identifier ∧ n.name = i.name ∧
      n.span = f.span i.extent)
    (named : n.kind.isDeclaration = true →
      ∃ c ∈ ts, n.nameNode = some c.root.id ∧ c.root.kind = .identifier)
    (inside : Planted f (some n.id) m₁ ts is m') :
    Planted f n.parent m [.node n ts] (identifier.toList ++ is) m' where
  grows := put.grows.trans inside.grows
  nodes n' member := by
    rw [nodesOf_node] at member
    rcases List.mem_append.1 member with top | below
    · obtain rfl := List.mem_singleton.1 top
      exact ⟨put.fresh, inside.grows.has put.has, (inside.grows.node put.has).trans put.own⟩
    · obtain ⟨fresh, has, own⟩ := inside.nodes n' below
      exact ⟨fun before => fresh (put.grows.has before), has, own⟩
  distinct := by
    rw [nodesOf_node, List.map_append]
    refine List.nodup_cons.2 ⟨fun below => ?_, inside.distinct⟩
    obtain ⟨n', member, same⟩ := List.mem_map.1 below
    exact (inside.nodes n' member).1 (same ▸ put.has)
  carries := by
    rw [nodesOf_node, List.filterMap_append]
    have top : [n].filterMap (fun n => (m'.node n.id).identifier) = identifier.toList := by
      rw [List.filterMap_cons, inside.grows.identifier put.has, put.carries]
      cases identifier <;> rfl
    rw [top]
    exact inside.carries.append_left _
  stands n' member i own := by
    rw [nodesOf_node] at member
    rcases List.mem_append.1 member with top | below
    · obtain rfl := List.mem_singleton.1 top
      rw [inside.grows.identifier put.has, put.carries] at own
      exact stands i own
    · exact inside.stands n' below i own
  hangs t member := by
    obtain rfl := List.mem_singleton.1 member
    rfl
  joined t member s within := by
    obtain rfl := List.mem_singleton.1 member
    cases within with
    | self => exact ⟨inside.hangs, named⟩
    | inside child within => exact inside.joined _ child _ within

end Planted

/-- An outline plants trees below a node. -/
abbrev Plants (f : LoadedFile) (parent : NodeId) (is : List Identifier) (m : Memory)
    (q : Asking (List Tree)) : Prop :=
  Planted f (some parent) m (q m).1 is (q m).2

/-- An outline plants trees below any node. -/
abbrev PlantsBelow (f : LoadedFile) (is : List Identifier) (inside : NodeId → Asking (List Tree)) :
    Prop := ∀ id m, Plants f id is m (inside id)

/-! ## Single nodes -/

section

variable {parent : NodeId} {kind : NodeKind}

/-- What is planted below a new container makes a tree with it. -/
theorem planted_container (plain : kind.isDeclaration = false) (extent : Extent)
    {inside : NodeId → Asking (List Tree)} (plants : PlantsBelow f is inside) :
    PlantsBelow f is fun parent => do
      let n ← addContainer f parent kind extent
      return [.node n (← inside n.id)] := by
  intro parent m
  have put := put_push m (n := { node := (addContainer f parent kind extent m).1 }) rfl
  exact .node put (by simp) (fun declares => absurd (plain.symm.trans declares) (by decide))
    (plants _ _)

/-- An identifier on its own is a tree. -/
theorem planted_addIdentifier (i : Identifier) :
    PlantsBelow f [i] fun parent => do return [.node (← addIdentifier f parent i) []] := by
  intro parent m
  have put := put_push m
    (n := { node := (addIdentifier f parent i m).1, identifier := some i }) rfl
  refine .node put ?_ (fun declares => absurd declares Bool.false_ne_true) (.nothing (.refl _))
  rintro _ ⟨⟩
  exact ⟨rfl, rfl, rfl⟩

/-- What is planted below a declaration that was added with its name makes a tree with it. -/
theorem planted_declared {x : Mention} {name : String} {extent : Extent} {redeclarable : Bool}
    {entity : Option EntityId} {doc : String} (same : ∀ i ∈ x.identifier?, name = i.name)
    (d : Declared)
    (added : d = ⟨declarationNode f parent kind name x.extent extent redeclarable m,
      declaredName f name x.extent m⟩)
    (inside : Planted f (some d.declaration.id) (m.declared d x entity doc) ts is m'') :
    Planted f (some parent) m [d.tree ts] (x.identifier?.toList ++ is) m'' := by
  have own : d.declaration.id = m.next ∧ d.name.id = m.nextName := by rw [added]; exact ⟨rfl, rfl⟩
  have hangs : d.declaration.parent = some parent ∧ d.name.parent = some d.declaration.id := by
    rw [added]; exact ⟨rfl, rfl⟩
  have named : d.declaration.nameNode = some d.name.id ∧ d.name.kind = .identifier := by
    rw [added]; exact ⟨rfl, rfl⟩
  obtain ⟨m₁, first, second⟩ := put_pair m
    ⟨d.declaration, none, none, entity, none, none, doc⟩
    ⟨d.name, x.identifier?, none, none, none, none, ""⟩ own.1 own.2
  have stands : ∀ i ∈ x.identifier?, d.name.kind = .identifier ∧ d.name.name = i.name ∧
      d.name.span = f.span i.extent := by
    intro i identifier
    refine ⟨named.2, ?_, ?_⟩
    · rw [added, ← same i identifier]; rfl
    · rw [added]; cases x <;> cases identifier <;> rfl
  have leaf : Planted f (some d.declaration.id) m₁ [.node d.name []] (x.identifier?.toList ++ [])
      (m.declared d x entity doc) := by
    refine hangs.2 ▸ .node second stands (fun declares => ?_) (.nothing (.refl _))
    exact absurd ((congrArg NodeKind.isDeclaration named.2).symm.trans declares) Bool.false_ne_true
  have tree := Planted.node first (by simp)
    (fun _ => ⟨.node d.name [], List.mem_cons_self, named⟩) (leaf.append inside)
  rw [← hangs.1]
  simpa [Declared.tree] using tree

/-- A declaration that is not registered holds what is planted below it. -/
theorem planted_adding (kind : NodeKind) (i : Identifier) (extent : Extent)
    (entity : Option EntityId) (doc : String) (redeclarable : Bool)
    {inside : Declared → Asking (List Tree)}
    (plants : ∀ d m, Plants f d.declaration.id is m (inside d)) :
    PlantsBelow f ([i] ++ is) fun parent => do
      let d ← addDeclaration f parent kind i extent entity doc redeclarable
      return [d.tree (← inside d)] := by
  intro parent m
  dsimp only [Plants]
  simp only [ask_bind, ask_pure, addDeclaration_eq]
  exact planted_declared (x := .name i) (by rintro _ ⟨⟩; rfl) _ rfl (plants _ _)

theorem grows_registerDeclaration (path : String) (offset : Nat) (id : NodeId) :
    m.Grows (registerDeclaration b path offset id m).2 := .of_nodes rfl

theorem grows_presetSymbol (name : Node) (s : Symbol) : m.Grows (presetSymbol name s m).2 :=
  m.grows_modify name.id (fun _ => rfl) fun _ => rfl

/-- A declaration holds what is planted below it. -/
theorem planted_declaring (b : Base) (kind : NodeKind) (i : Identifier) (extent : Extent)
    (entity : Option EntityId) (doc : String) (redeclarable : Bool)
    {inside : Declared → Asking (List Tree)}
    (plants : ∀ d m, Plants f d.declaration.id is m (inside d)) :
    PlantsBelow f ([i] ++ is) fun parent => do
      let d ← declare b f parent kind i extent entity doc redeclarable
      return [d.tree (← inside d)] := by
  have registered (d : Declared) (m : Memory) : Plants f d.declaration.id is m (do
      registerDeclaration b f.path i.extent.start d.declaration.id
      inside d) := (plants d _).after (grows_registerDeclaration _ _ _)
  exact planted_adding kind i extent entity doc redeclarable registered

/-- A declaration may have nothing below it; something is noted about it. -/
theorem planted_bare (b : Base) (kind : NodeKind) (i : Identifier) (extent : Extent)
    (entity : Option EntityId) (doc : String) (redeclarable : Bool) (note : Declared → Asking Unit)
    (noted : ∀ d (m : Memory), m.Grows (note d m).2) :
    PlantsBelow f [i] fun parent => do
      let d ← declare b f parent kind i extent entity doc redeclarable
      note d
      return [d.tree []] := by
  have inside (d : Declared) (m : Memory) : Plants f d.declaration.id [] m do
      note d
      return [] := .nothing (noted d m)
  exact planted_declaring b kind i extent entity doc redeclarable inside

/-- One part of a file is planted after the other. -/
theorem plants_append {first second : NodeId → Asking (List Tree)} (plants : PlantsBelow f is first)
    (next : PlantsBelow f is' second) :
    PlantsBelow f (is ++ is') fun id => do
      let left ← first id
      return left ++ (← second id) :=
  fun id m => (plants id m).append (next id _)

/-- Names that share what stands behind them are declared one after the other. -/
theorem planted_declareEach (parent : NodeId) (kind : NodeKind) (extent : Extent) (doc : String)
    (names : List Identifier) (m : Memory) :
    let r := names.mapM (fun i => declare b f parent kind i extent i.definition doc) m
    Planted f (some parent) m (r.1.map (·.tree [])) names r.2 := by
  induction names generalizing m with
  | nil => exact .nothing (.refl m)
  | cons i rest ih =>
      have first := planted_bare (f := f) b kind i extent i.definition doc (isBlankName i.name)
        (fun _ => pure ()) (fun _ m => .refl m) parent m
      rw [List.mapM_cons]
      exact first.append (ih _)

/-- What stands behind names is planted below the one name, or beside them. -/
theorem planted_names (b : Base) (kind : NodeKind) (extent : Extent) (doc : String)
    (names : List Identifier) {inside : NodeId → Asking (List Tree)}
    (plants : PlantsBelow f is inside) :
    PlantsBelow f (names ++ is) fun parent =>
      outlineNames b f parent kind extent doc names inside := by
  intro parent m
  match names with
  | [] => exact plants parent m
  | [i] =>
      exact planted_declaring b kind i extent i.definition doc (isBlankName i.name)
        (fun d => plants d.declaration.id) parent m
  | i :: j :: rest =>
      have group : PlantsBelow f (i :: j :: rest ++ is) fun id => do
          let declared ← (i :: j :: rest).mapM fun i =>
            declare b f id kind i extent i.definition doc
          return declared.map (·.tree []) ++ (← inside id) := fun id m =>
        (planted_declareEach id kind extent doc (i :: j :: rest) m).append (plants id _)
      exact planted_container rfl extent group parent m

theorem grows_symbolFor (b : Base) (e : EntityId) : m.Grows (symbolFor b e m).2 :=
  .of_nodes ((nodeless_symbolFor b e).kept m)

/-- The name of an import is declared; a path that stands for it carries no identifier. -/
theorem planted_import (b : Base) (i : Import) :
    PlantsBelow f i.name.toList fun parent => outlineImport b f parent i := by
  intro parent m
  show Planted f (some parent) m (outlineImport b f parent i m).1 _ (outlineImport b f parent i m).2
  have preset {m : Memory} (name : Node) (e : EntityId) :
      m.Grows (presetSymbol name (symbolFor b e m).1 (symbolFor b e m).2).2 :=
    (grows_symbolFor b e).trans (grows_presetSymbol _ _)
  cases named : i.name with
  | some name =>
      have declared (note : Declared → Asking Unit)
          (noted : ∀ d (m : Memory), m.Grows (note d m).2) :=
        planted_bare (f := f) b .importSpec name i.extent (name.definition.or i.implicit) ""
          (isBlankName name.name) note noted parent m
      unfold outlineImport
      rw [named]
      dsimp only
      cases bare : name.definition with
      | some d =>
          rw [bare] at declared
          exact declared (fun _ => pure ()) fun _ m => .refl m
      | none =>
          rw [bare] at declared
          cases implicit : i.implicit with
          | none =>
              rw [implicit] at declared
              exact declared (fun _ => pure ()) fun _ m => .refl m
          | some e =>
              rw [implicit] at declared
              exact declared (fun d => do presetSymbol d.name (← symbolFor b e))
                fun d _ => preset d.name e
  | none =>
      rw [outlineImport_eq b f parent named]
      have unmarked : ∀ j ∈ (Mention.path i.path).identifier?, i.impliedName b = j.name := by
        simp [Mention.identifier?]
      cases i.implicit with
      | none => exact planted_declared unmarked _ rfl (.nothing (grows_registerDeclaration _ _ _))
      | some e =>
          exact planted_declared unmarked _ rfl
            (.nothing ((preset _ e).trans (grows_registerDeclaration _ _ _)))

/-- The guard of a type switch is declared as a variable. -/
theorem planted_guard (parent : NodeId) (guard : Option (Identifier × Extent)) (m : Memory) :
    let r := outlineGuard b f parent guard m
    Planted f (some parent) m (r.1.map (·.tree [])).toList (guard.toList.map (·.1)) r.2 := by
  match guard with
  | none => exact .nothing (.refl m)
  | some (i, assignment) =>
      exact planted_bare b .variable i assignment none "" (isBlankName i.name) (fun _ => pure ())
        (fun _ m => .refl m) parent m

theorem grows_bindGuard (b : Base) (guard : Option Declared) (start : Nat) (body : Phrase) :
    m.Grows (bindGuard b f guard start body m).2 := by
  cases guard with
  | none => exact .of_nodes rfl
  | some d =>
      have asked : m.Grows (guardSymbol b f.package d.declaration.name (b.placeAt f.path start)
          d.declaration.id (body.clauseVariables.map (·.1)) { m with
            cases := body.clauseVariables.foldl
              (fun cases entry => cases.insert entry.1 entry.2) m.cases }).2 := .of_nodes rfl
      exact asked.trans (grows_presetSymbol d.name _)

/-- The guard of a type switch stands between what is done before and its subject. -/
theorem planted_typeSwitch (b : Base) (extent : Extent) (guard : Option (Identifier × Extent))
    (start : Nat) (clauses : Phrase) {before between behind : NodeId → Asking (List Tree)}
    {is₁ is₂ is₃ : List Identifier} (init : PlantsBelow f is₁ before)
    (subject : PlantsBelow f is₂ between) (body : PlantsBelow f is₃ behind) :
    PlantsBelow f (is₁ ++ guard.toList.map (·.1) ++ is₂ ++ is₃) fun parent => do
      let n ← addContainer f parent .block extent
      let first ← before n.id
      let declared ← outlineGuard b f n.id guard
      let subjects ← between n.id
      bindGuard b f declared start clauses
      let rest ← behind n.id
      return [.node n (first ++ (declared.map (·.tree [])).toList ++ subjects ++ rest)] := by
  have inside : PlantsBelow f (is₁ ++ guard.toList.map (·.1) ++ is₂ ++ is₃) fun id => do
      let first ← before id
      let declared ← outlineGuard b f id guard
      let subjects ← between id
      bindGuard b f declared start clauses
      let rest ← behind id
      return first ++ (declared.map (·.tree [])).toList ++ subjects ++ rest := fun id m =>
    (((init id m).append (planted_guard id guard _)).append (subject id _)).append
      ((body id _).after (grows_bindGuard b _ start clauses))
  exact planted_container rfl extent inside

/-- The signature of a function stands between its type parameters and its body. -/
theorem planted_function (b : Base) (kind : NodeKind) (name : Identifier)
    (extent signatureExtent : Extent) (doc : String) (redeclarable : Bool)
    {note : Declared → Asking Unit}
    (noted : ∀ d (m : Memory), m.Grows (note d m).2)
    {before between behind : NodeId → Asking (List Tree)} {is₁ is₂ is₃ : List Identifier}
    (parameters : PlantsBelow f is₁ before) (signature : PlantsBelow f is₂ between)
    (body : PlantsBelow f is₃ behind) :
    PlantsBelow f ([name] ++ is₁ ++ is₂ ++ is₃) fun parent => do
      let d ← declare b f parent kind name extent name.definition doc redeclarable
      note d
      let parameters ← before d.declaration.id
      let n ← addContainer f d.declaration.id .signature signatureExtent
      let inside ← between n.id
      let rest ← behind d.declaration.id
      return [d.tree (parameters ++ .node n inside :: rest)] := by
  have container : PlantsBelow f is₂ fun id => do
      let n ← addContainer f id .signature signatureExtent
      return [.node n (← between n.id)] := planted_container rfl signatureExtent signature
  have inside (d : Declared) (m : Memory) : Plants f d.declaration.id (is₁ ++ is₂ ++ is₃) m do
      note d
      let parameters ← before d.declaration.id
      let n ← addContainer f d.declaration.id .signature signatureExtent
      let inside ← between n.id
      let rest ← behind d.declaration.id
      return parameters ++ [.node n inside] ++ rest :=
    (((parameters _ _).append (container _ _)).append (body _ _)).after (noted d m)
  have whole := planted_declaring b kind name extent name.definition doc redeclarable inside
  simpa using whole

end

end Checked
end SymbolAtlas
