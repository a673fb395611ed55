/-
# SymbolAtlas.Proofs.Oracle.Portrait -- a program, whoever asks about it

An oracle may make up its nodes and symbols as it is asked for them, so what it answers depends
on what it was asked before.  The program that it answers from does not.  A `Portrait` is that
program: places instead of nodes, keys instead of symbols, and no memory.

`Oracle.Portrays` is the contract of an oracle with respect to a portrait: the nodes that it has
shown stand for places, the symbols that it has named have the keys of the portrait, and what
it answers about them is what the portrait says.  Two mentions of one thing have one key, and
no two places have one node.
-/
import SymbolAtlas.Proofs.Session.Questions

set_option autoImplicit false

namespace SymbolAtlas

open Text (Span)

/-! ## What a program is -/

/-- What a node says about itself. -/
structure Face where
  kind : NodeKind
  name : String
  file : String
  span : Span
  redeclarable : Bool
deriving DecidableEq, Repr

/-- What a node says about itself. -/
def Node.face (n : Node) : Face := ⟨n.kind, n.name, n.file, n.span, n.redeclarable⟩

/-- Where the name of a node's container comes from: a declaration and a group ask their owner,
a package clause its parent, and nothing else asks. -/
def Face.above {α : Type} (f : Face) (parent owner : Option α) : Option α :=
  match Namer.suffix? f.kind with
  | some _ => owner
  | none =>
      match f.kind with
      | .package => parent
      | .group => owner
      | _ => none

/-- How a symbol is addressed, told by keys. -/
inductive Outline where
  | standard
  | aliasOf (target : Option String)
  | method (container : String) (bases : List String)
  | composite (members : List String)
  | transient
deriving DecidableEq, Repr

/-- A variant, told by keys. -/
def Variant.outline : Variant → Outline
  | standard => .standard
  | aliasOf target => .aliasOf (target.map (·.key))
  | method container bases => .method container.key (bases.map (·.key))
  | composite members => .composite (members.map (·.key))
  | transient => .transient

namespace Outline

/-- Whether the place of use is the only declaration. -/
def isAtUse : Outline → Bool
  | composite _ | transient => true
  | _ => false

/-- The symbols that one leads to: the target of an alias and the bases of a member. -/
def links : Outline → List String
  | aliasOf target => target.toList
  | method _ bases => bases
  | _ => []

end Outline

theorem Variant.isAtUse_outline (v : Variant) : v.outline.isAtUse = v.isAtUse := by
  cases v <;> rfl

theorem Variant.links_outline (v : Variant) : v.outline.links = v.links.map (·.key) := by
  cases v with
  | aliasOf target => cases target <;> rfl
  | _ => rfl

/-- A program: what stands at its places, and what its symbols are. -/
structure Portrait (π : Type) where
  face : π → Face
  parent : π → Option π
  nameNode : π → Option π
  owner : π → Option π
  /-- The key of the symbol that a place denotes. -/
  denotes : π → Option String
  /-- The name under which a declaration publishes its alias target. -/
  publishes : π → Option String
  label : String → String
  flags : String → SymbolFlags
  declarations : String → List π
  target : String → Option String
  members : String → Option (List String)
  container : String → Option String
  bases : String → String → List String
  exported : String → Option (List String)
  /-- How many containers there are around a place, at most. -/
  depth : π → Nat
  depth_above : ∀ x y, (face x).above (parent x) (owner x) = some y → depth y < depth x
  /-- Declarations are named by identifiers. -/
  kind_nameNode : ∀ x y, nameNode x = some y → (face y).kind = .identifier

namespace Portrait

variable {π : Type} (P : Portrait π)

/-- The place that gives a place its container's name. -/
def above (x : π) : Option π := (P.face x).above (P.parent x) (P.owner x)

/-- How a symbol is addressed that is neither an alias nor transient in the strict sense. -/
def ofMember (key : String) : Outline :=
  if (P.flags key).member then
    match P.container key with
    | some container =>
        .method container ((P.bases container (P.label key)).filter (· ≠ key))
    | none => .standard
  else .standard

/-- How a symbol is addressed. -/
def outline (key : String) : Outline :=
  if (P.flags key).aliasing then .aliasOf (P.target key)
  else if (P.flags key).transient then
    match P.members key with
    | some members => .composite members
    | none => if (P.flags key).onlyTransient then .transient else P.ofMember key
  else P.ofMember key

/-- The place whose span marks a declaration: its name, if it has one. -/
def mark (x : π) : π := (P.nameNode x).getD x

/-- The key of the symbol that an identifier denotes. -/
def named (x : π) : Option String :=
  if (P.face x).kind = .identifier then P.denotes x else none

/-- The key of what the name of a declaration denotes that publishes its alias target. -/
def published (x : π) : Option String :=
  if (P.face x).kind.isDeclaration = true ∧ (P.publishes x).isSome = true then
    (P.nameNode x).bind P.denotes
  else none

/-- Whether a place is the name child of a declaration. -/
def IsDefinitionSite (x : π) : Prop :=
  (P.face x).kind = .identifier ∧ ∃ p, P.parent x = some p ∧
    (P.face p).kind.isDeclaration = true ∧ P.nameNode p = some x

end Portrait

/-! ## What a memory holds of a program -/

/-- What the memory of an oracle holds of a program: which nodes it has shown, and for which
places they stand, and which symbols it has named. -/
structure Recall (μ π : Type) where
  reads : μ → NodeId → Option π
  knows : μ → Symbol → Prop

namespace Recall

variable {μ π : Type} (r : Recall μ π) (m : μ)

/-- A node, or none, stands for a place, or none. -/
def Sees (id : Option NodeId) (x : Option π) : Prop := id.map (r.reads m) = x.map some

/-- A symbol, or none, has a key, or none. -/
def Names (sym : Option Symbol) (key : Option String) : Prop :=
  sym.map (·.key) = key ∧ ∀ s ∈ sym, r.knows m s

/-- Symbols have the keys of a list. -/
def NamesAll (syms : List Symbol) (keys : List String) : Prop :=
  syms.map (·.key) = keys ∧ ∀ s ∈ syms, r.knows m s

end Recall

/-- The contract of an oracle with respect to the program that it answers from. -/
structure Oracle.Portrays {μ π : Type} (o : Oracle μ) (start : μ) (P : Portrait π)
    (r : Recall μ π) : Prop where
  /-- A node that was shown goes on standing for its place, and no other node does. -/
  reads_asked : ∀ {m m' id x}, o.Asked m m' → r.reads m id = some x → r.reads m' id = some x
  reads_inj : ∀ {m id id' x}, r.reads m id = some x → r.reads m id' = some x → id = id'
  /-- A symbol that was named stays known. -/
  knows_asked : ∀ {m m' sym}, o.Asked m m' → r.knows m sym → r.knows m' sym
  tree : ∀ file ∈ o.files, ∀ n ∈ file.nodes, (r.reads start n.id).isSome
  face : ∀ {m id x}, r.reads m id = some x → (o.node id m).face = P.face x
  parent : ∀ {m id x}, r.reads m id = some x → r.Sees m (o.node id m).parent (P.parent x)
  nameNode : ∀ {m id x}, r.reads m id = some x → r.Sees m (o.node id m).nameNode (P.nameNode x)
  owner : ∀ {m id x}, r.reads m id = some x →
    r.Sees (o.owner id m).2 (o.owner id m).1 (P.owner x)
  symbolAt : ∀ {m id x}, r.reads m id = some x →
    r.Names (o.symbolAt id m).2 (o.symbolAt id m).1 (P.denotes x)
  exportAlias : ∀ {m id x}, r.reads m id = some x → (o.exportAlias id m).1 = P.publishes x
  symbol : ∀ {m sym}, r.knows m sym → sym.name = P.label sym.key ∧ sym.flags = P.flags sym.key
  declarationsOf : ∀ {m sym}, r.knows m sym →
    (o.declarationsOf sym m).1.map (r.reads (o.declarationsOf sym m).2) =
      (P.declarations sym.key).map some
  resolveAlias : ∀ {m sym}, r.knows m sym →
    r.Names (o.resolveAlias sym m).2 (o.resolveAlias sym m).1 (P.target sym.key)
  /-- What a composite stands for does not depend on the place of use. -/
  compositeMembers : ∀ {m sym} use, r.knows m sym →
    (o.compositeMembers sym use m).1.map (·.map (·.key)) = P.members sym.key
  containerOf : ∀ {m sym}, r.knows m sym →
    r.Names (o.containerOf sym m).2 (o.containerOf sym m).1 (P.container sym.key)
  baseMembers : ∀ {m container} name, r.knows m container →
    r.NamesAll (o.baseMembers container name m).2 (o.baseMembers container name m).1
      (P.bases container.key name)
  exportPath : ∀ {m sym}, r.knows m sym → (o.exportPath sym m).1 = P.exported sym.key
  /-- Once its declarations were told, the exported names of a symbol are settled. -/
  exportPath_stays : ∀ {m m' m'' sym}, (o.declarationsOf sym m).1 ≠ [] →
    o.Later (o.declarationsOf sym m).2 m' → o.Asked m' m'' →
    (o.exportPath sym m'').1 = (o.exportPath sym m').1
  depth : ∀ x, P.depth x ≤ o.size

namespace Oracle.Portrays

variable {μ π : Type} {o : Oracle μ} {start m m' : μ} {P : Portrait π} {r : Recall μ π}

theorem reads_later (h : o.Portrays start P r) {id : NodeId} {x : π}
    (read : r.reads m id = some x) (later : o.Later m m') : r.reads m' id = some x := by
  induction later with
  | refl => exact read
  | tail _ last ih => exact h.reads_asked last ih

theorem knows_later (h : o.Portrays start P r) {sym : Symbol} (known : r.knows m sym)
    (later : o.Later m m') : r.knows m' sym := by
  induction later with
  | refl => exact known
  | tail _ last ih => exact h.knows_asked last ih

/-- The node of a file goes on standing for its place. -/
theorem reads_tree (h : o.Portrays start P r) {file : Tree} (indexed : file ∈ o.files) {n : Node}
    (inside : n ∈ file.nodes) : ∃ x, ∀ m, o.Later start m → r.reads m n.id = some x := by
  obtain ⟨x, read⟩ := Option.isSome_iff_exists.1 (h.tree file indexed n inside)
  exact ⟨x, fun m later => h.reads_later read later⟩

end Oracle.Portrays

namespace Recall

variable {μ π : Type} {r : Recall μ π} {m : μ}

theorem Sees.exists_of_some {id : NodeId} {x : Option π} (h : r.Sees m (some id) x) :
    ∃ y, x = some y ∧ r.reads m id = some y := by
  unfold Sees at h
  cases x with
  | none => cases h
  | some y => exact ⟨y, rfl, Option.some.inj h⟩

theorem Sees.eq_none {x : Option π} (h : r.Sees m none x) : x = none := by
  unfold Sees at h
  cases x with
  | none => rfl
  | some y => cases h

theorem Sees.exists_of_place {id : Option NodeId} {y : π} (h : r.Sees m id (some y)) :
    ∃ i, id = some i ∧ r.reads m i = some y := by
  unfold Sees at h
  cases id with
  | none => cases h
  | some i => exact ⟨i, rfl, Option.some.inj h⟩

end Recall

/-! ## Classification -/

section Classify

variable {μ π : Type} {o : Oracle μ} {start m : μ} {P : Portrait π} {r : Recall μ π}

theorem outline_ofMember (h : o.Portrays start P r) {sym : Symbol} (known : r.knows m sym) :
    (Variant.ofMember o sym m).1.outline = P.ofMember sym.key ∧
      ∀ s ∈ (Variant.ofMember o sym m).1.links, r.knows (Variant.ofMember o sym m).2 s := by
  obtain ⟨label, flags⟩ := h.symbol known
  have container := h.containerOf known
  unfold Portrait.ofMember
  rw [Variant.ofMember_eq, ← flags]
  by_cases member : sym.flags.member = true
  · simp only [if_pos member]
    generalize o.containerOf sym m = answer at container ⊢
    obtain ⟨found, m₁⟩ := answer
    cases found with
    | none =>
        rw [show P.container sym.key = none from container.1.symm]
        exact ⟨rfl, by simp [Variant.links]⟩
    | some owner =>
        obtain ⟨same, knows⟩ := container
        obtain ⟨bases, knowsAll⟩ := h.baseMembers sym.name (knows owner rfl)
        rw [← same, ← label, Option.map_some]
        refine ⟨?_, fun s member => knowsAll s (List.mem_filter.1 member).1⟩
        show Outline.method _ _ = Outline.method _ _
        rw [← bases, List.filter_map]
        rfl
  · simp only [if_neg member]
    exact ⟨rfl, by simp [Variant.links]⟩

/-- **A symbol is addressed as the program says**, whenever it is classified and from whatever
use. -/
theorem outline_classify (h : o.Portrays start P r) {sym : Symbol} (known : r.knows m sym)
    (use : Option NodeId) :
    (Variant.classify o sym use m).1.outline = P.outline sym.key ∧
      ∀ s ∈ (Variant.classify o sym use m).1.links, r.knows (Variant.classify o sym use m).2 s := by
  obtain ⟨-, flags⟩ := h.symbol known
  have members := h.compositeMembers use known
  have asked : o.Asked m (o.compositeMembers sym use m).2 := .quiet (.compositeMembers sym use m)
  unfold Portrait.outline
  rw [Variant.classify_eq, ← flags]
  by_cases aliasing : sym.flags.aliasing = true
  · simp only [if_pos aliasing]
    obtain ⟨same, knows⟩ := h.resolveAlias known
    refine ⟨congrArg Outline.aliasOf same, fun s member => knows s ?_⟩
    generalize (o.resolveAlias sym m).1 = target at member ⊢
    cases target with
    | none => cases member
    | some target => exact congrArg some (List.mem_singleton.1 member).symm
  · simp only [if_neg aliasing]
    by_cases transient : sym.flags.transient = true
    · simp only [if_pos transient]
      generalize o.compositeMembers sym use m = answer at members asked ⊢
      obtain ⟨found, m₁⟩ := answer
      rw [← members]
      cases found with
      | some members => exact ⟨rfl, by simp [Variant.links]⟩
      | none =>
          simp only [Option.map_none]
          by_cases only : sym.flags.onlyTransient = true
          · simp only [if_pos only]
            exact ⟨rfl, by simp [Variant.links]⟩
          · simp only [if_neg only]
            exact outline_ofMember h (h.knows_asked asked known)
    · simp only [if_neg transient]
      exact outline_ofMember h known

end Classify

end SymbolAtlas
