/-
# SymbolAtlas.Naming -- from declarations to symbol names

A declaration is named by its container's name and one descriptor more.  Files
name their package, groups and package clauses pass on the name of their
container, and whatever lies below a block or a signature stays local.  A `Namer`
resolves each node once and remembers the answer; a name that is declared again
under one container gets a number.
-/
import SymbolAtlas.Descriptor
import SymbolAtlas.Oracle
import SymbolAtlas.Table

set_option autoImplicit false

namespace SymbolAtlas

/-- What a node is resolved to: a name, or nothing that could carry one. -/
abbrev Resolved := Option SymbolName

/-- The names given so far. -/
structure Namer where
  scheme : String
  locate : Locator
  memo : Table NodeId Resolved := .empty
  /-- How often a name was declared under a container, by the container's text. -/
  counters : Table (String × String) Nat := .empty
  nextLocal : Nat := 0

namespace Namer

/-- A namer that has named nothing; an empty scheme is the usual one. -/
def start (scheme : String) (locate : Locator) : Namer :=
  { scheme := if scheme = "" then defaultScheme else scheme, locate }

/-- The descriptor that a declaration of some kind adds to its container. -/
def suffix? : NodeKind → Option Suffix
  | .typeDecl => some .type
  | .function | .method | .interfaceMethod => some .method
  | .variable | .constant | .field | .property => some .term
  | .typeParameter => some .typeParameter
  | _ => none

/-- A fresh local name. -/
def newLocal (n : Namer) : SymbolName × Namer :=
  (.localName n.nextLocal, { n with nextLocal := n.nextLocal + 1 })

/-- Remember what a node is resolved to. -/
def remember (n : Namer) (id : NodeId) (r : Resolved) : Namer :=
  { n with memo := n.memo.insert id r }

/-- The name of the package that a file belongs to. -/
def ofFile (n : Namer) (path : String) : Resolved :=
  (n.locate path).map fun location =>
    .globalName n.scheme location.package [⟨location.path, .package⟩]

/-- The name that a declaration gets after `seen` others of its name.  The first one
keeps its name, unless it may be repeated. -/
def numbered (node : Node) (seen : Nat) : String :=
  if node.redeclarable ∨ 0 < seen then node.name ++ toString seen else node.name

/-- The name of a declaration below a container with a global name. -/
def child (n : Namer) (container : SymbolName) (node : Node) (suffix : Suffix) :
    SymbolName × Namer :=
  match container with
  | .localName _ => n.newLocal
  | .globalName scheme package ds =>
      if node.name = "" then n.newLocal
      else
        let key := (container.render, node.name)
        let seen := (n.counters.get? key).getD 0
        (.globalName scheme package (ds ++ [⟨numbered node seen, suffix⟩]),
          { n with counters := n.counters.insert key (seen + 1) })

variable {μ : Type}

/-- The name of a declaration: below its container, or local where there is none. -/
def below (n : Namer) (container : Resolved) (node : Node) (suffix : Suffix) :
    SymbolName × Namer :=
  match container with
  | some container => n.child container node suffix
  | none => n.newLocal

/-- The containers around a node seem to have no end. -/
structure Endless where
deriving DecidableEq, Repr

/-- Follows the containers of nodes, and asks an oracle about them. -/
abbrev Climbing (μ : Type) := ExceptT Endless (StateM μ)

/-- What a node is resolved to that was not resolved before.  `resolve` gives its
container. -/
def derive (o : Oracle μ) (resolve : Option NodeId → Namer → Climbing μ (Resolved × Namer))
    (id : NodeId) (node : Node) (n : Namer) : Climbing μ (Resolved × Namer) := do
  match suffix? node.kind with
  | some suffix =>
      let (container, n) ← resolve (← o.owner id) n
      let (name, n) := n.below container node suffix
      return (some name, n)
  | none =>
      match node.kind with
      | .file => return (n.ofFile node.file, n)
      | .package => resolve node.parent n
      | .group => resolve (← o.owner id) n
      | .block | .signature => return (none, n)
      | _ =>
          let (name, n) := n.newLocal
          return (some name, n)

/-- Resolve a node, its container first.  The fuel bounds the chain of containers; a longer one is
not resolved. -/
def resolveWith (o : Oracle μ) :
    Nat → Option NodeId → Namer → Climbing μ (Resolved × Namer)
  | _, none, n => pure (none, n)
  | 0, some _, _ => throw {}
  | fuel + 1, some id, n => do
      match n.memo.get? id with
      | some r => return (r, n)
      | none =>
          let (r, n) ← n.derive o (resolveWith o fuel) id (o.node id (← get))
          return (r, n.remember id r)

/-- A fresh local name, which a node that has no other keeps for good. -/
def localFor (n : Namer) (id : Option NodeId) : SymbolName × Namer :=
  let (name, n) := n.newLocal
  match id with
  | some id => (name, n.remember id (some name))
  | none => (name, n)

/-- The name of a node, a local one if it has no other. -/
def nameOf? (o : Oracle μ) (id : Option NodeId) (n : Namer) : Climbing μ (SymbolName × Namer) := do
  match ← resolveWith o (o.size + 1) id n with
  | (some name, n) => return (name, n)
  | (none, n) => return n.localFor id

/-- The name of something with these declarations: that of the first one. -/
def nameFirst? (o : Oracle μ) (declarations : List NodeId) (n : Namer) :
    Climbing μ (SymbolName × Namer) :=
  match declarations with
  | first :: _ => n.nameOf? o (some first)
  | [] => pure n.newLocal

/-- The name of a node whose containers come to an end, as they do in every program.  Any other
node is answered with a local name. -/
def nameOf (o : Oracle μ) (id : Option NodeId) (n : Namer) : StateM μ (SymbolName × Namer) := do
  return (← (n.nameOf? o id).run).toOption.getD (n.localFor id)

/-! ## What is asked -/

theorem climbing_bind {α β : Type} (first : Climbing μ α) (rest : α → Climbing μ β) (m : μ) :
    (first >>= rest) m =
      match first m with
      | (.ok a, m) => rest a m
      | (.error e, m) => (.error e, m) := by
  show (match first m with | (a, m) => ExceptT.bindCont rest a m) = _
  rcases first m with ⟨e | a, m⟩ <;> rfl

theorem derive_eq (o : Oracle μ)
    (resolve : Option NodeId → Namer → Climbing μ (Resolved × Namer)) (id : NodeId) (node : Node)
    (n : Namer) (m : μ) :
    n.derive o resolve id node m =
      match suffix? node.kind with
      | some suffix =>
          match resolve (o.owner id m).1 n (o.owner id m).2 with
          | (.ok (container, n), m) =>
              (.ok (some (n.below container node suffix).1,
                (n.below container node suffix).2), m)
          | (.error e, m) => (.error e, m)
      | none =>
          match node.kind with
          | .file => (.ok (n.ofFile node.file, n), m)
          | .package => resolve node.parent n m
          | .group => resolve (o.owner id m).1 n (o.owner id m).2
          | .block | .signature => (.ok (none, n), m)
          | _ => (.ok (some n.newLocal.1, n.newLocal.2), m) := by
  unfold derive
  cases suffix? node.kind with
  | some suffix =>
      refine (climbing_bind (resolve (o.owner id m).1 n) (fun (container, n) =>
        pure (some (n.below container node suffix).1, (n.below container node suffix).2)) _).trans ?_
      rcases resolve (o.owner id m).1 n (o.owner id m).2 with ⟨e | ⟨container, n⟩, m⟩ <;> rfl
  | none => cases node.kind <;> rfl

theorem resolveWith_succ (o : Oracle μ) (fuel : Nat) (id : NodeId) (n : Namer) (m : μ) :
    resolveWith o (fuel + 1) (some id) n m =
      match n.memo.get? id with
      | some r => (.ok (r, n), m)
      | none =>
          match n.derive o (resolveWith o fuel) id (o.node id m) m with
          | (.ok (r, n), m) => (.ok (r, n.remember id r), m)
          | (.error e, m) => (.error e, m) := by
  rw [resolveWith]
  cases n.memo.get? id with
  | some r => rfl
  | none =>
      refine (climbing_bind (n.derive o (resolveWith o fuel) id (o.node id m))
        (fun (r, n) => pure (r, n.remember id r)) m).trans ?_
      rcases n.derive o (resolveWith o fuel) id (o.node id m) m with ⟨e | ⟨r, n⟩, m⟩ <;> rfl

theorem nameOf?_eq (o : Oracle μ) (id : Option NodeId) (n : Namer) (m : μ) :
    n.nameOf? o id m =
      match resolveWith o (o.size + 1) id n m with
      | (.ok (some name, n), m) => (.ok (name, n), m)
      | (.ok (none, n), m) => (.ok (n.localFor id), m)
      | (.error e, m) => (.error e, m) := by
  rw [nameOf?, climbing_bind]
  rcases resolveWith o (o.size + 1) id n m with ⟨e | ⟨_ | name, n⟩, m⟩ <;> rfl

theorem nameOf_eq (o : Oracle μ) (id : Option NodeId) (n : Namer) (m : μ) :
    n.nameOf o id m =
      match resolveWith o (o.size + 1) id n m with
      | (.ok (some name, n), m) => ((name, n), m)
      | (.ok (none, n), m) => (n.localFor id, m)
      | (.error _, m) => (n.localFor id, m) := by
  show (((n.nameOf? o id m).1.toOption).getD (n.localFor id), (n.nameOf? o id m).2) = _
  rw [nameOf?_eq]
  rcases resolveWith o (o.size + 1) id n m with ⟨e | ⟨_ | name, n⟩, m⟩ <;> rfl

end Namer
end SymbolAtlas
